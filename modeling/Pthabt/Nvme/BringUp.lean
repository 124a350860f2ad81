import Pthabt.Lib.Progress
import Pthabt.Nvme.AdminQueue

/-! Whenever the controller resets, gets ready, executes and completes, `__nvme_init` has no
command refused, can go on to its end, and when it returns there is an I/O queue pair for each core
at the memory that the driver uses for it. -/

namespace Pthabt.Nvme

open Lib Run PhaseRing

/-! ### Invariant -/

/-- The admin `QP` as it was constructed. -/
structure Fresh (c : InitConfig) (s : BringUp) : Prop where
  flags : s.doneFlag = fun _ => 2
  rbuf : s.rbuf = c.rbuf
  tail : s.sqTail = 0
  head : s.cqHead = 0
  phase : s.cqPhase = true
  page : ∀ w < pageWords, c.seen 0 s.mem w = initSqcq aqd w

/-- The controller is disabled and was reset. -/
structure Reset (K : Controller) : Prop where
  cc : K.cc = 0
  csts : K.csts = 0
  refused : K.refused = false

def InitInv (c : InitConfig) (s : BringUp) : Prop :=
  match s.pc with
  | .disable => True
  | .disabled => s.ctrl.cc = 0 ∧ s.ctrl.refused = false
  | .newQp 0 => Reset s.ctrl
  | .newQp (q + 1) => q + 1 ≤ c.nCore ∧ AtRest c s (q + 1) (2 * q + 1)
  | .acq => Reset s.ctrl ∧ Fresh c s
  | .asq => Reset s.ctrl ∧ Fresh c s ∧ s.ctrl.acq = c.cqPa 0
  | .aqa => Reset s.ctrl ∧ Fresh c s ∧ s.ctrl.acq = c.cqPa 0 ∧ s.ctrl.asq = c.sqPa 0
  | .enable => Reset s.ctrl ∧ Fresh c s ∧ s.ctrl.acq = c.cqPa 0 ∧ s.ctrl.asq = c.sqPa 0 ∧
      s.ctrl.aqa = 0x70007
  | .waitReady => (Fresh c s ∧ Configured c s.ctrl ∧ s.ctrl.csts = 0) ∨ AtRest c s 1 0
  | .newSqe k => k.Ok c ∧ AtRest c s k.made k.no
  | .fill k cid => k.Ok c ∧ cid = k.no % aqd ∧ AdminQueue c s k.made (k.no + 1) k.no k.no k.no k.no
  | .doorbell k cid => k.Ok c ∧ cid = k.no % aqd ∧
      AdminQueue c s k.made (k.no + 1) k.no k.no k.no k.no ∧ k.Sent c (s.ctrl.entry s.mem)
  | .checkCq (.reqAndWait k cid) _ | .done k cid => k.Ok c ∧ cid = k.no % aqd ∧ Waiting c s k
  | .copy (.reqAndWait k cid) cid' | .mark (.reqAndWait k cid) cid' =>
    k.Ok c ∧ cid = k.no % aqd ∧ cid' = k.no % aqd ∧ Arrived c s k
  | .checkCq (.newSqe _) _ | .copy (.newSqe _) _ | .mark (.newSqe _) _ => False
  | .returned => AtRest c s c.nq (2 * c.nCore + 1)


section Steps

variable {c : InitConfig} {s : BringUp} {K : Controller}

/-! ### The registers -/

theorem Reset.enabled (h : Reset K) : K.enabled = false := by
  rw [Controller.enabled, h.cc]
  rfl

theorem Reset.write_acq (h : Reset K) (v : ℕ) : K.write64 0x30 v = { K with acq := v } := by
  rw [Controller.write64, if_neg (by decide), if_pos rfl, h.enabled, Bool.or_false]

theorem Reset.write_asq (h : Reset K) (v : ℕ) : K.write64 0x28 v = { K with asq := v } := by
  rw [Controller.write64, if_pos rfl, h.enabled, Bool.or_false]

theorem Reset.write_aqa (h : Reset K) (v : ℕ) : K.write32 0x24 v = { K with aqa := v } := by
  rw [Controller.write32, if_neg (by decide), if_pos rfl, h.enabled, Bool.or_false]

theorem Reset.write_cc (h : Reset K) : K.write32 0x14 0x460001 = { K with cc := 0x460001 } := by
  rw [Controller.write32, if_pos rfl, h.refused, Bool.false_and, ← h.refused]

theorem write_disable (K : Controller) : K.write32 0x14 0 = { K with cc := 0, refused := false } := by
  rw [Controller.write32, if_pos rfl]
  have hoff : (0 % 2 == 1) = false := rfl
  rw [hoff, Bool.and_false]

/-- A controller that was reset stays so. -/
theorem Reset.settle (h : Reset K) : K.settle = K := by
  rw [Controller.settle, h.enabled, ← h.csts]
  rfl

theorem Fresh.goto (h : Fresh c s) (K : Controller) (pc : InitPc) :
    Fresh c { s with ctrl := K, pc := pc } := ⟨h.flags, h.rbuf, h.tail, h.head, h.phase, h.page⟩

theorem aqa_value (c : InitConfig) : (c.size 0 - 1) <<< 16 ||| (c.size 0 - 1) = 0x70007 := by
  rw [InitConfig.size, if_pos rfl]
  decide

/-- The admin `QP` is constructed. -/
theorem fresh_newQp (c : InitConfig) (s : BringUp) : Fresh c (s.newQp c 0) := by
  rw [BringUp.newQp, if_pos rfl]
  exact ⟨rfl, rfl, rfl, rfl, rfl, fun w hw => seen_qpMem c 0 s.mem hw⟩

/-- The controller gets ready with the queues that the host has set up. -/
theorem Fresh.ready (h : Fresh c s) (hv : c.Valid) (hK : Configured c s.ctrl) (hcsts : s.ctrl.csts = 0) :
    AtRest c { s with ctrl := s.ctrl.settle } 1 0 := by
  obtain ⟨hc0, hs0⟩ : createdCqs c 0 = (fun _ => none) ∧ createdSqs c 0 = fun _ => none := by
    refine ⟨funext fun q => if_neg (by omega), funext fun q => if_neg (by omega)⟩
  rw [Controller.settle, if_pos hK.enabled, if_pos hcsts]
  refine ⟨⟨hK.cc, hK.asq, hK.acq, hK.aqa, hK.refused⟩, rfl, rfl, rfl, rfl, rfl, hc0.symm, hs0.symm, h.tail,
    h.head, h.phase, fun i hi => ?_, fun i hi => ?_, ?_, fun i hi => ?_, fun q hq hlt => ?_,
    Nat.succ_le_succ (Nat.zero_le _)⟩
  · rw [h.flags]
    exact ⟨fun h0 => absurd h0 (Nat.succ_ne_zero 1), fun h0 => absurd h0.1 (Nat.lt_irrefl _)⟩
  · rw [h.rbuf]
    exact hv.rbuf i hi
  · refine holds_nil fun i hi => ?_
    rw [aqd] at hi
    have hp := initSqcq_p aqd i
    simp only [cqSlot, cqeP] at hp ⊢
    rw [h.page _ (by rw [pageWords]; omega)]
    exact hp
  · have hlt := hi
    rw [aqd] at hlt
    dsimp only
    rw [h.page _ (by rw [sqOffset_eq, pageWords]; omega)]
    exact initSqcq_cid hi (by omega)
  · omega

/-! ### Steps of the host -/

/-- After a command the host goes on with the next. -/
theorem next_inv {k : AdminCmd} (hk : k.Ok c) (h : AtRest c s k.made (k.no + 1)) :
    InitInv c { s with pc := k.next c } := by
  cases k with
  | identify =>
    rw [AdminCmd.next]
    split_ifs with hnq
    · exact ⟨Nat.le_of_lt_succ hnq, h.goto _⟩
    · have h0 : c.nCore = 0 := by rw [InitConfig.nq] at hnq; omega
      change AtRest c _ c.nq (2 * c.nCore + 1)
      rw [InitConfig.nq, h0]
      exact h.goto _
  | createCq q =>
    have hno : (AdminCmd.createCq q).no + 1 = (AdminCmd.createSq q).no := by
      have := hk.1
      simp only [AdminCmd.no]
      omega
    rw [hno] at h
    exact ⟨hk, h.goto _⟩
  | createSq q =>
    have hle := hk.2
    rw [AdminCmd.next]
    split_ifs with hnq
    · exact ⟨Nat.le_of_lt_succ hnq, h.goto _⟩
    · have hq : q = c.nCore := by rw [InitConfig.nq] at hnq; omega
      change AtRest c _ c.nq (2 * c.nCore + 1)
      rw [InitConfig.nq, ← hq]
      exact h.goto _

/-- The `QP` of a core is constructed. -/
theorem newQp_inv (hv : c.Valid) {q : ℕ} (hq : q + 1 ≤ c.nCore) (h : AtRest c s (q + 1) (2 * q + 1)) :
    InitInv c (s.newQp c (q + 1)) := by
  have hno : (AdminCmd.createCq (q + 1)).no = 2 * q + 1 := by
    simp only [AdminCmd.no]
    omega
  have hother : ∀ i ≤ c.nCore, i ≠ q + 1 → ∀ w < pageWords,
      c.seen i (BringUp.qpMem c (q + 1) s.mem) w = c.seen i s.mem w :=
    fun i hi hne w hw => hv.seen_qpMem_of_ne hq hi hne s.mem hw
  have h0 := hother 0 (Nat.zero_le _) (Nat.succ_ne_zero q).symm
  rw [BringUp.newQp, if_neg (Nat.succ_ne_zero q)]
  refine ⟨⟨Nat.succ_pos q, hq⟩, ?_⟩
  rw [AtRest, hno]
  refine ⟨h.configured, h.csts, h.sqTail, h.sqHead, h.history, h.pending, h.cqs, h.sqs, h.tail, h.head,
    h.phase, h.flags, h.rbuf, ?_, fun i hi => ?_, fun i hi hlt w hw => ?_, ?_⟩
  · refine h.ring.congr (by decide) fun i hi => ?_
    rw [aqd] at hi
    simp only [cqSlot, cqeCid, cqeP]
    rw [h0 _ (by rw [pageWords]; omega)]
  · have hlt := hi
    rw [aqd] at hlt
    dsimp only
    rw [h0 _ (by rw [sqOffset_eq, pageWords]; omega)]
    exact h.cids i hi
  · dsimp only
    simp only [AdminCmd.made] at hlt
    by_cases he : i = q + 1
    · rw [he, seen_qpMem c (q + 1) s.mem hw, InitConfig.size, if_neg (Nat.succ_ne_zero q)]
    · rw [hother i (by omega) he w hw]
      exact h.pages i hi (by omega) w hw
  · simp only [AdminCmd.made, InitConfig.nq]
    omega

theorem InitInv.host (h : InitInv c s) (hv : c.Valid) : (s.host c).Safe (InitInv c) := by
  unfold InitInv at h
  rw [BringUp.host]
  cases hpc : s.pc with
  | disable =>
    change _ ∧ _
    rw [write_disable]
    exact ⟨rfl, rfl⟩
  | disabled =>
    rw [hpc] at h
    dsimp only
    split_ifs with hc
    · exact ⟨h.1, hc, h.2⟩
    · trivial
  | newQp qid =>
    rw [hpc] at h
    cases qid with
    | zero => exact ⟨⟨h.cc, h.csts, h.refused⟩, fresh_newQp c s⟩
    | succ q => exact newQp_inv hv h.1 h.2
  | acq =>
    rw [hpc] at h
    obtain ⟨hr, hf⟩ := h
    dsimp only
    rw [hr.write_acq]
    exact ⟨⟨hr.cc, hr.csts, hr.refused⟩, hf.goto _ _, rfl⟩
  | asq =>
    rw [hpc] at h
    obtain ⟨hr, hf, hacq⟩ := h
    dsimp only
    rw [hr.write_asq]
    exact ⟨⟨hr.cc, hr.csts, hr.refused⟩, hf.goto _ _, hacq, rfl⟩
  | aqa =>
    rw [hpc] at h
    obtain ⟨hr, hf, hacq, hasq⟩ := h
    dsimp only
    rw [hr.write_aqa, aqa_value]
    exact ⟨⟨hr.cc, hr.csts, hr.refused⟩, hf.goto _ _, hacq, hasq, rfl⟩
  | enable =>
    rw [hpc] at h
    obtain ⟨hr, hf, hacq, hasq, haqa⟩ := h
    dsimp only
    rw [hr.write_cc]
    exact .inl ⟨hf.goto _ _, ⟨rfl, hasq, hacq, haqa, hr.refused⟩, hr.csts⟩
  | waitReady =>
    rw [hpc] at h
    dsimp only
    rcases h with ⟨hf, hK, hc⟩ | h
    · rw [hc, if_neg Nat.zero_ne_one]
      exact .inl ⟨hf.goto _ _, hK, hc⟩
    · rw [h.csts, if_pos rfl]
      exact ⟨trivial, h.goto _⟩
  | newSqe k =>
    rw [hpc] at h
    obtain ⟨hk, h⟩ := h
    obtain ⟨heq, hq⟩ := h.claim
    dsimp only
    rw [heq] at hq ⊢
    exact ⟨hk, rfl, hq⟩
  | fill k cid =>
    rw [hpc] at h
    obtain ⟨hk, rfl, h⟩ := h
    obtain ⟨hq, he⟩ := h.fill hv hk
    exact ⟨hk, rfl, hq, he⟩
  | doorbell k cid =>
    rw [hpc] at h
    obtain ⟨hk, rfl, h, he⟩ := h
    exact ⟨hk, rfl, .of_doorbell h he⟩
  | checkCq back again =>
    rw [hpc] at h
    cases back with
    | newSqe k => exact h.elim
    | reqAndWait k cid =>
      obtain ⟨hk, rfl, h⟩ := h
      dsimp only
      rcases h.testPhase hv again with ⟨heq, harr⟩ | ⟨heq, -⟩
      · rw [heq]
        exact ⟨hk, rfl, rfl, harr.goto _⟩
      · rw [heq]
        exact ⟨hk, rfl, h.goto _⟩
  | copy back cid' =>
    rw [hpc] at h
    cases back with
    | newSqe k => exact h.elim
    | reqAndWait k cid =>
      obtain ⟨hk, rfl, rfl, h⟩ := h
      dsimp only
      rw [if_pos (h.rbuf _ (Nat.mod_lt _ (by decide)))]
      exact ⟨hk, rfl, rfl, h.goto _⟩
  | mark back cid' =>
    rw [hpc] at h
    cases back with
    | newSqe k => exact h.elim
    | reqAndWait k cid =>
      obtain ⟨hk, rfl, rfl, h⟩ := h
      exact ⟨hk, rfl, h.mark _⟩
  | done k cid =>
    rw [hpc] at h
    obtain ⟨hk, rfl, h⟩ := h
    dsimp only
    split_ifs with hd
    · exact next_inv hk (h.atRest hd)
    · exact ⟨hk, rfl, h.goto _⟩
  | returned =>
    change InitInv c s
    unfold InitInv
    exact h

/-! ### Steps of the controller -/

/-- Before the controller is ready the host has not touched its queue. -/
def InitPc.Early : InitPc → Prop
  | .disable | .disabled | .newQp 0 | .acq | .asq | .aqa | .enable | .waitReady => True
  | _ => False

/-- Once the controller is ready, the admin queue is in some state. -/
theorem InitInv.queue (h : InitInv c s) (hlate : ¬ s.pc.Early) :
    ∃ made issued rung executed posted taken, AdminQueue c s made issued rung executed posted taken := by
  unfold InitInv at h
  cases hpc : s.pc with
  | disable | disabled | acq | asq | aqa | enable | waitReady =>
    rw [hpc] at hlate
    exact absurd trivial hlate
  | newQp qid =>
    rw [hpc] at h hlate
    cases qid with
    | zero => exact absurd trivial hlate
    | succ q => exact ⟨_, _, _, _, _, _, h.2⟩
  | newSqe k =>
    rw [hpc] at h
    exact ⟨_, _, _, _, _, _, h.2⟩
  | fill k cid =>
    rw [hpc] at h
    exact ⟨_, _, _, _, _, _, h.2.2⟩
  | doorbell k cid =>
    rw [hpc] at h
    exact ⟨_, _, _, _, _, _, h.2.2.1⟩
  | checkCq back again =>
    rw [hpc] at h
    cases back with
    | newSqe k => exact h.elim
    | reqAndWait k cid =>
      obtain ⟨-, -, e, p, t, hq, -⟩ := h
      exact ⟨_, _, _, e, p, t, hq⟩
  | copy back cid =>
    rw [hpc] at h
    cases back with
    | newSqe k => exact h.elim
    | reqAndWait k cid => exact ⟨_, _, _, _, _, _, h.2.2.2⟩
  | mark back cid =>
    rw [hpc] at h
    cases back with
    | newSqe k => exact h.elim
    | reqAndWait k cid => exact ⟨_, _, _, _, _, _, h.2.2.2⟩
  | done k cid =>
    rw [hpc] at h
    obtain ⟨-, -, e, p, t, hq, -⟩ := h
    exact ⟨_, _, _, e, p, t, hq⟩
  | returned =>
    rw [hpc] at h
    exact ⟨_, _, _, _, _, _, h⟩

theorem InitInv.settle (h : InitInv c s) (hv : c.Valid) :
    InitInv c { s with ctrl := s.ctrl.settle } := by
  by_cases hlate : s.pc.Early
  · have h' := h
    unfold InitInv at h'
    cases hpc : s.pc with
    | disable => trivial
    | disabled =>
      rw [hpc] at h'
      have hoff : s.ctrl.enabled = false := by
        rw [Controller.enabled, h'.1]
        rfl
      change s.ctrl.settle.cc = 0 ∧ s.ctrl.settle.refused = false
      rw [Controller.settle, hoff]
      exact h'
    | newQp qid =>
      rw [hpc] at h' hlate
      cases qid with
      | zero =>
        rw [Reset.settle h', ← hpc]
        exact h
      | succ q => exact absurd hlate id
    | acq | asq | aqa | enable =>
      rw [hpc] at h'
      rw [h'.1.settle, ← hpc]
      exact h
    | waitReady =>
      rw [hpc] at h'
      rcases h' with ⟨hf, hK, hc⟩ | hq
      · exact .inr ((hf.ready hv hK hc).goto _)
      · rw [settle_ready hq.configured hq.csts, ← hpc]
        exact h
    | newSqe k | fill k cid | doorbell k cid | checkCq back again | copy back cid | mark back cid
    | done k cid | returned =>
      rw [hpc] at hlate
      exact absurd hlate id
  · obtain ⟨m, i, r, e, p, t, hq⟩ := h.queue hlate
    rw [settle_ready hq.configured hq.csts]
    exact h

/-- A controller that executes or completes is ready, and has something to do only while the host
waits. -/
theorem InitInv.waits (h : InitInv c s) (hpc : s.pc ≠ .disable) (hen : s.ctrl.enabled = true)
    (hcsts : s.ctrl.csts = 1) (hbusy : s.ctrl.sqHead ≠ s.ctrl.sqTail ∨ s.ctrl.pending.isSome) :
    ∃ k cid, (s.pc = .done k cid ∨ ∃ again, s.pc = .checkCq (.reqAndWait k cid) again) ∧
      k.Ok c ∧ cid = k.no % aqd ∧ Waiting c s k := by
  have hidle : ∀ {made issued n taken : ℕ}, ¬ AdminQueue c s made issued n n n taken := by
    intro made issued n taken hq
    rcases hbusy with hne | hp
    · exact hne (hq.sqHead.trans hq.sqTail.symm)
    · rw [hq.pending, if_neg (Nat.lt_irrefl _)] at hp
      cases hp
  have hreset : ¬ Reset s.ctrl := fun hr => by
    rw [hr.enabled] at hen
    cases hen
  unfold InitInv at h
  cases hs : s.pc with
  | disable => exact absurd hs hpc
  | disabled =>
    rw [hs] at h
    rw [Controller.enabled, h.1] at hen
    cases hen
  | newQp qid =>
    rw [hs] at h
    cases qid with
    | zero => exact absurd h hreset
    | succ q => exact absurd h.2 hidle
  | acq | asq | aqa | enable =>
    rw [hs] at h
    exact absurd h.1 hreset
  | waitReady =>
    rw [hs] at h
    rcases h with ⟨-, -, hc⟩ | h
    · rw [hc] at hcsts
      cases hcsts
    · exact absurd h hidle
  | newSqe k =>
    rw [hs] at h
    exact absurd h.2 hidle
  | fill k cid =>
    rw [hs] at h
    exact absurd h.2.2 hidle
  | doorbell k cid =>
    rw [hs] at h
    exact absurd h.2.2.1 hidle
  | checkCq back again =>
    rw [hs] at h
    cases back with
    | newSqe k => exact h.elim
    | reqAndWait k cid => exact ⟨k, cid, .inr ⟨again, rfl⟩, h⟩
  | copy back cid =>
    rw [hs] at h
    cases back with
    | newSqe k => exact h.elim
    | reqAndWait k cid => exact absurd h.2.2.2 hidle
  | mark back cid =>
    rw [hs] at h
    cases back with
    | newSqe k => exact h.elim
    | reqAndWait k cid => exact absurd h.2.2.2 hidle
  | done k cid =>
    rw [hs] at h
    exact ⟨k, cid, .inl rfl, h⟩
  | returned =>
    rw [hs] at h
    exact absurd h hidle

/-- The host waits on, after a step of the controller. -/
theorem inv_of_waiting {k : AdminCmd} {cid : ℕ}
    (hpc : s.pc = .done k cid ∨ ∃ again, s.pc = .checkCq (.reqAndWait k cid) again) (hk : k.Ok c)
    (hcid : cid = k.no % aqd) (h : Waiting c s k) : InitInv c s := by
  unfold InitInv
  rcases hpc with hpc | ⟨again, hpc⟩
  · rw [hpc]
    exact ⟨hk, hcid, h⟩
  · rw [hpc]
    exact ⟨hk, hcid, h⟩

theorem initInv_step (hv : c.Valid) (o : InitStep) (s : BringUp) (h : InitInv c s)
    (hA : o.Admissible s) : (o.step c s).Safe (InitInv c) := by
  cases o with
  | host => exact h.host hv
  | settle => exact h.settle hv
  | exec x =>
    obtain ⟨hen, hcsts, hne, -⟩ := hA
    by_cases hd : s.pc = .disable
    · unfold InitInv
      dsimp only [InitStep.step, Outcome.Safe]
      rw [hd]
      trivial
    · obtain ⟨k, cid, hpc, hk, hcid, hw⟩ := h.waits hd hen hcsts (.inl hne)
      exact inv_of_waiting hpc hk hcid (hw.exec hv hk hne x)
  | post x =>
    obtain ⟨hen, hcsts, hp⟩ := hA
    obtain ⟨⟨cid', accepted⟩, hpend⟩ := Option.isSome_iff_exists.mp hp
    rw [InitStep.step, hpend]
    by_cases hd : s.pc = .disable
    · unfold InitInv
      dsimp only [Outcome.Safe]
      rw [hd]
      trivial
    · obtain ⟨k, cid, hpc, hk, hcid, hw⟩ := h.waits hd hen hcsts (.inr hp)
      exact inv_of_waiting hpc hk hcid (hw.post hv hpend x)

/-! ### Progress -/

/-- Where the controller is with the command in slot `cid`, and the host, which waits for it. -/
def waitRank (s : BringUp) (cid consumed completed : ℕ) : ℕ :=
  if s.ctrl.pending.isSome then 9
  else if s.ctrl.sqHead ≠ s.ctrl.sqTail then 10
  else if s.doneFlag cid = 1 then consumed else completed

/-- What is left to do. -/
def InitConfig.left (c : InitConfig) (no : ℕ) : ℕ := 16 * (2 * c.nCore + 1 - no)

def rank (c : InitConfig) (s : BringUp) : ℕ :=
  match s.pc with
  | .disable => c.left 0 + 24
  | .disabled => c.left 0 + if s.ctrl.csts = 0 then 22 else 23
  | .newQp 0 => c.left 0 + 21
  | .acq => c.left 0 + 20
  | .asq => c.left 0 + 19
  | .aqa => c.left 0 + 18
  | .enable => c.left 0 + 17
  | .waitReady => c.left 0 + if s.ctrl.csts = 1 then 15 else 16
  | .newQp (q + 1) => c.left (2 * q + 1) + 14
  | .newSqe k => c.left k.no + 13
  | .fill k _ => c.left k.no + 12
  | .doorbell k _ => c.left k.no + 11
  | .checkCq (.reqAndWait k cid) _ => c.left k.no + waitRank s cid 2 5
  | .copy (.reqAndWait k _) _ => c.left k.no + 4
  | .mark (.reqAndWait k _) _ => c.left k.no + 3
  | .done k cid => c.left k.no + waitRank s cid 1 6
  | .checkCq (.newSqe _) _ | .copy (.newSqe _) _ | .mark (.newSqe _) _ | .returned => 0

theorem waitRank_le {cid a b : ℕ} (ha : a ≤ 10) (hb : b ≤ 10) : waitRank s cid a b ≤ 10 := by
  unfold waitRank
  split_ifs <;> omega

theorem waitRank_executed {cid a b : ℕ} (h : s.ctrl.pending.isSome) : waitRank s cid a b = 9 := if_pos h

theorem waitRank_submitted {cid a b : ℕ} (hp : s.ctrl.pending = none) (hne : s.ctrl.sqHead ≠ s.ctrl.sqTail) :
    waitRank s cid a b = 10 := by
  simp only [waitRank, hp, Option.isSome_none, Bool.false_eq_true, if_false, if_pos hne]

theorem waitRank_completed (cid a b : ℕ) (hp : s.ctrl.pending = none) (he : s.ctrl.sqHead = s.ctrl.sqTail) :
    waitRank s cid a b = if s.doneFlag cid = 1 then a else b := by
  simp only [waitRank, hp, Option.isSome_none, Bool.false_eq_true, if_false, if_neg (not_not.mpr he)]

/-- The rank of a host that waits is that of its wait, whatever the controller does. -/
theorem rank_of_waiting {k : AdminCmd} {cid : ℕ}
    (hpc : s.pc = .done k cid ∨ ∃ again, s.pc = .checkCq (.reqAndWait k cid) again) :
    ∃ a b, a ≤ 2 ∧ b ≤ 6 ∧ ∀ mem K, rank c { s with mem := mem, ctrl := K } =
      c.left k.no + waitRank { s with mem := mem, ctrl := K } cid a b := by
  rcases hpc with hpc | ⟨again, hpc⟩
  · refine ⟨1, 6, by decide, by decide, fun mem K => ?_⟩
    simp only [rank, hpc, waitRank]
  · refine ⟨2, 5, by decide, by decide, fun mem K => ?_⟩
    simp only [rank, hpc, waitRank]

/-- The next command has a lower rank. -/
theorem rank_next {k : AdminCmd} (hk : k.Ok c) (s : BringUp) :
    rank c { s with pc := k.next c } < c.left k.no + 1 := by
  cases k with
  | identify =>
    rw [AdminCmd.next]
    split_ifs with hnq
    · simp only [rank, InitConfig.left, AdminCmd.no, InitConfig.nq] at hnq ⊢
      omega
    · exact Nat.succ_pos _
  | createCq q =>
    obtain ⟨hq, hle⟩ := hk
    simp only [rank, InitConfig.left, AdminCmd.no, AdminCmd.next]
    omega
  | createSq q =>
    obtain ⟨hq, hle⟩ := hk
    rw [AdminCmd.next]
    split_ifs with hnq
    · simp only [rank, InitConfig.left, AdminCmd.no, InitConfig.nq] at hnq ⊢
      omega
    · exact Nat.succ_pos _

/-- While the host waits, the controller or the host goes on. -/
theorem Waiting.goesOn {k : AdminCmd} (h : Waiting c s k) (hv : c.Valid) (hk : k.Ok c)
    (hpc : s.pc = .done k (k.no % aqd) ∨ ∃ again, s.pc = .checkCq (.reqAndWait k (k.no % aqd)) again) :
    ∃ o s', o.Admissible s ∧ InitStep.step c o s = .ok s' ∧ rank c s' < rank c s := by
  obtain ⟨a, b, ha, hb, hrank⟩ := rank_of_waiting (c := c) hpc
  have hready : s.ctrl.enabled = true ∧ s.ctrl.csts = 1 := by
    obtain ⟨e, p, t, hq, -⟩ := h
    exact ⟨hq.configured.enabled, hq.csts⟩
  cases hpend : s.ctrl.pending with
  | some x =>
    obtain ⟨cid, accepted⟩ := x
    have hsome : s.ctrl.pending.isSome := by rw [hpend]; rfl
    have hpost := h.post hv hpend ⟨0, 0, 0, 0, false, 0⟩
    refine ⟨.post ⟨0, 0, 0, 0, false, 0⟩, _, ⟨hready.1, hready.2, hsome⟩, by rw [InitStep.step, hpend], ?_⟩
    -- the command that was executed is the last one submitted
    have heq : s.ctrl.sqHead = s.ctrl.sqTail := by
      obtain ⟨e, p, t, hq, h1, h2, h3, h4, -, -⟩ := h
      have hp := hq.pending
      rw [hpend] at hp
      have hlt : p < e := by
        by_contra hge
        rw [if_neg hge] at hp
        cases hp
      rw [hq.sqHead, hq.sqTail]
      congr 1
      omega
    have hr : rank c s = c.left k.no + 9 := (hrank s.mem s.ctrl).trans (by rw [waitRank_executed hsome])
    rw [hr, hrank]
    simp only [waitRank, Option.isSome_none, Bool.false_eq_true, if_false, heq, ne_eq, not_true_eq_false]
    split_ifs <;> omega
  | none =>
    by_cases heq : s.ctrl.sqHead = s.ctrl.sqTail
    · rcases hpc with hpc | ⟨again, hpc⟩
      · -- the test of `done`
        have hstep : s.host c = .ok { s with
            pc := if s.doneFlag (k.no % aqd) = 1 then k.next c
              else .checkCq (.reqAndWait k (k.no % aqd)) false } := by rw [BringUp.host, hpc]
        refine ⟨.host, _, trivial, hstep, ?_⟩
        have hr : rank c s = c.left k.no + if s.doneFlag (k.no % aqd) = 1 then 1 else 6 := by
          rw [rank, hpc]
          dsimp only
          rw [waitRank_completed _ _ _ hpend heq]
        rw [hr]
        by_cases hd : s.doneFlag (k.no % aqd) = 1
        · rw [if_pos hd, if_pos hd]
          exact rank_next hk s
        · rw [if_neg hd, if_neg hd]
          have hc := waitRank_completed (s := { s with pc := .checkCq (.reqAndWait k (k.no % aqd)) false })
            (k.no % aqd) 2 5 hpend heq
          rw [if_neg hd] at hc
          simp only [rank, hc]
          omega
      · -- the test of the phase bit
        have hstep : s.host c = .ok (s.testPhase c (.reqAndWait k (k.no % aqd)) again) := by
          rw [BringUp.host, hpc]
        refine ⟨.host, _, trivial, hstep, ?_⟩
        have hr : rank c s = c.left k.no + if s.doneFlag (k.no % aqd) = 1 then 2 else 5 := by
          rw [rank, hpc]
          dsimp only
          rw [waitRank_completed _ _ _ hpend heq]
        rw [hr]
        rcases h.testPhase hv again with ⟨htest, harr⟩ | ⟨htest, hdone⟩
        · have hzero := (harr.flags _ (Nat.mod_lt _ (by decide))).mpr ⟨Nat.lt_succ_self _, rfl⟩
          rw [htest, hzero, if_neg Nat.zero_ne_one]
          simp only [rank]
          omega
        · have hd := hdone hpend heq
          have hw := waitRank_completed (s := { s with pc := .done k (k.no % aqd) })
            (k.no % aqd) 1 6 hpend heq
          rw [if_pos hd] at hw
          rw [htest, if_pos hd]
          simp only [rank, hw]
          omega
    · refine ⟨.exec fun _ => 0, _, ⟨hready.1, hready.2, heq, hpend⟩, rfl, ?_⟩
      have hsome : (s.ctrl.exec c s.mem).pending.isSome := by
        rw [Controller.exec]
        dsimp only
        split <;> rfl
      have hr : rank c s = c.left k.no + 10 :=
        (hrank s.mem s.ctrl).trans (by rw [waitRank_submitted hpend heq])
      rw [hr, hrank]
      simp only [waitRank, hsome, if_true]
      omega

/-- Before its end, some step brings `__nvme_init` closer to it. -/
theorem InitInv.goesOn (h : InitInv c s) (hv : c.Valid) (hpc : s.pc ≠ .returned) :
    ∃ o s', o.Admissible s ∧ InitStep.step c o s = .ok s' ∧ rank c s' < rank c s := by
  have h' := h
  unfold InitInv at h'
  have hhost : ∀ s', s.host c = .ok s' → rank c s' < rank c s →
      ∃ o s', o.Admissible s ∧ InitStep.step c o s = .ok s' ∧ rank c s' < rank c s :=
    fun s' hs hr => ⟨.host, s', trivial, hs, hr⟩
  cases hs : s.pc with
  | disable =>
    refine hhost _ (by rw [BringUp.host, hs]) ?_
    simp only [rank, hs]
    split_ifs <;> omega
  | disabled =>
    rw [hs] at h'
    by_cases hc : s.ctrl.csts = 0
    · refine hhost _ (by rw [BringUp.host, hs]; exact if_pos hc) ?_
      simp only [rank, hs, if_pos hc]
      omega
    · refine ⟨.settle, _, trivial, rfl, ?_⟩
      have hoff : s.ctrl.enabled = false := by
        rw [Controller.enabled, h'.1]
        rfl
      simp only [rank, hs, Controller.settle, hoff, hc, Bool.false_eq_true, if_false, if_true]
      omega
  | newQp qid =>
    refine hhost _ (by rw [BringUp.host, hs]) ?_
    cases qid with
    | zero =>
      simp only [rank, hs, BringUp.newQp, if_true]
      omega
    | succ q =>
      rw [hs] at h'
      have hq := h'.1
      simp only [rank, hs, BringUp.newQp, Nat.succ_ne_zero, if_false, AdminCmd.no, InitConfig.left]
      omega
  | acq | asq | aqa | enable =>
    refine hhost _ (by rw [BringUp.host, hs]) ?_
    simp only [rank, hs]
    try split_ifs
    all_goals omega
  | waitReady =>
    rw [hs] at h'
    rcases h' with ⟨-, hK, hc⟩ | hq
    · refine ⟨.settle, _, trivial, rfl, ?_⟩
      simp only [rank, hs, Controller.settle, hK.enabled, hc, if_true, Nat.zero_ne_one, if_false]
      omega
    · refine hhost _ (by rw [BringUp.host, hs]) ?_
      simp only [rank, hs, hq.csts, if_true, AdminCmd.no]
      omega
  | newSqe k =>
    rw [hs] at h'
    refine hhost _ (by rw [BringUp.host, hs]) ?_
    rw [h'.2.claim.1]
    simp only [rank, hs]
    omega
  | fill k cid =>
    refine hhost _ (by rw [BringUp.host, hs]) ?_
    simp only [rank, hs, BringUp.fill]
    omega
  | doorbell k cid =>
    refine hhost _ (by rw [BringUp.host, hs]) ?_
    have hle := @waitRank_le (s.doorbell k cid) cid 2 5 (by decide) (by decide)
    have hr : rank c (s.doorbell k cid) = c.left k.no + waitRank (s.doorbell k cid) cid 2 5 := rfl
    rw [hr]
    simp only [rank, hs]
    omega
  | checkCq back again =>
    rw [hs] at h'
    cases back with
    | newSqe k => exact h'.elim
    | reqAndWait k cid =>
      obtain ⟨hk, rfl, hw⟩ := h'
      exact hw.goesOn hv hk (.inr ⟨again, hs⟩)
  | copy back cid' =>
    rw [hs] at h'
    cases back with
    | newSqe k => exact h'.elim
    | reqAndWait k cid =>
      obtain ⟨hk, rfl, rfl, hq⟩ := h'
      refine hhost { s with pc := .mark (.reqAndWait k (k.no % aqd)) (k.no % aqd) } ?_ ?_
      · rw [BringUp.host, hs]
        exact if_pos (hq.rbuf _ (Nat.mod_lt _ (by decide)))
      · simp only [rank, hs]
        omega
  | mark back cid' =>
    rw [hs] at h'
    cases back with
    | newSqe k => exact h'.elim
    | reqAndWait k cid =>
      obtain ⟨hk, rfl, rfl, hq⟩ := h'
      refine hhost _ (by rw [BringUp.host, hs]) ?_
      have hpend : s.ctrl.pending = none := by rw [hq.pending, if_neg (Nat.lt_irrefl _)]
      have heq : s.ctrl.sqHead = s.ctrl.sqTail := by rw [hq.sqHead, hq.sqTail]
      have hflag : Function.update s.doneFlag (k.no % aqd) 1 (k.no % aqd) = 1 := Function.update_self ..
      simp only [rank, hs, BringUp.mark, waitRank, hpend, heq, hflag, Option.isSome_none, Bool.false_eq_true,
        if_false, ne_eq, not_true_eq_false, if_true]
      omega
  | done k cid =>
    rw [hs] at h'
    obtain ⟨hk, rfl, hw⟩ := h'
    exact hw.goesOn hv hk (.inl hs)
  | returned => exact absurd hs hpc

/-- `__nvme_init` can always come to its end. -/
theorem InitInv.finishes (hv : c.Valid) {s : BringUp} (h : InitInv c s) :
    ∃ os t, Runs (InitStep.step c) InitStep.Admissible os s t ∧ t.pc = .returned := by
  have hgo : ∀ s, InitInv c s → ¬ s.pc = .returned → ∃ o s', InitStep.Admissible o s ∧
      InitStep.step c o s = .ok s' ∧ InitInv c s' ∧ rank c s' < rank c s := by
    intro s h hpc
    obtain ⟨o, s', hA, hstep, hr⟩ := h.goesOn hv hpc
    have h' := initInv_step hv o s h hA
    rw [hstep] at h'
    exact ⟨o, s', hA, hstep, h', hr⟩
  obtain ⟨os, t, hruns, -, ht, -⟩ := exists_runs_of_rank hgo h
  exact ⟨os, t, hruns, ht⟩

end Steps

/-! ### The theorem -/

/-- Nothing was refused since the reset; `__nvme_init` can come to its end; and there the controller
has a completion and a submission queue for each core and no others, at the physical addresses of
what `get_cqe` and `get_sqe` return for it, in memory that is as a new queue has it. -/
structure BroughtUp (c : InitConfig) (s : BringUp) : Prop where
  accepted : s.pc ≠ .disable → s.ctrl.refused = false
  finishes : ∃ os t, Runs (InitStep.step c) InitStep.Admissible os s t ∧ t.pc = .returned
  cqs : s.pc = .returned → ∀ qid, s.ctrl.cqs qid =
    if 0 < qid ∧ qid ≤ c.nCore then some (v2p c.pagemap (c.getCqe qid 0), c.qd) else none
  sqs : s.pc = .returned → ∀ qid, s.ctrl.sqs qid =
    if 0 < qid ∧ qid ≤ c.nCore then some (v2p c.pagemap (c.getSqe qid 0), c.qd, qid) else none
  memory : s.pc = .returned → ∀ qid, 0 < qid → qid ≤ c.nCore → ∀ w < pageWords,
    s.mem (c.word (c.page (.sqcq qid) + 4 * w)) = (newQueue c.qd).sqcq w

section Theorem

variable {c : InitConfig} {s : BringUp}

theorem InitInv.accepted (h : InitInv c s) (hpc : s.pc ≠ .disable) : s.ctrl.refused = false := by
  by_cases hlate : s.pc.Early
  · unfold InitInv at h
    cases hs : s.pc with
    | disable => exact absurd hs hpc
    | disabled =>
      rw [hs] at h
      exact h.2
    | newQp qid =>
      rw [hs] at h hlate
      cases qid with
      | zero => exact Reset.refused h
      | succ q => exact absurd hlate id
    | acq | asq | aqa | enable =>
      rw [hs] at h
      exact h.1.refused
    | waitReady =>
      rw [hs] at h
      rcases h with ⟨-, hK, -⟩ | hq
      · exact hK.refused
      · exact hq.configured.refused
    | newSqe k | fill k cid | doorbell k cid | checkCq back again | copy back cid | mark back cid
    | done k cid | returned =>
      rw [hs] at hlate
      exact absurd hlate id
  · obtain ⟨m, i, r, e, p, t, hq⟩ := h.queue hlate
    exact hq.configured.refused

theorem InitInv.broughtUp (h : InitInv c s) (hv : c.Valid) : BroughtUp c s := by
  have hend : s.pc = .returned → AtRest c s c.nq (2 * c.nCore + 1) := by
    intro hpc
    unfold InitInv at h
    rw [hpc] at h
    exact h
  refine ⟨h.accepted, h.finishes hv, fun hpc qid => ?_, fun hpc qid => ?_, fun hpc qid hq hle w hw => ?_⟩
  · rw [(hend hpc).cqs, createdCqs]
    by_cases hq : 0 < qid ∧ qid ≤ c.nCore
    · rw [if_pos hq, if_pos ⟨hq.1, hq.2, by omega⟩, InitConfig.getCqe,
        hv.v2p_add (p := .sqcq qid) hq.2 (by omega), InitConfig.cqPa, Nat.mul_zero, Nat.add_zero]
    · rw [if_neg hq, if_neg fun h => hq ⟨h.1, h.2.1⟩]
  · rw [(hend hpc).sqs, createdSqs]
    by_cases hq : 0 < qid ∧ qid ≤ c.nCore
    · rw [if_pos hq, if_pos ⟨hq.1, hq.2, by omega⟩, InitConfig.getSqe, Nat.mul_zero, Nat.add_zero,
        hv.v2p_add (p := .sqcq qid) hq.2 (by omega), InitConfig.sqPa]
    · rw [if_neg hq, if_neg fun h => hq ⟨h.1, h.2.1⟩]
  · have hmod := hv.pa_mod (p := .sqcq qid) hle
    have hlt := hw
    rw [pageWords] at hlt
    have hword : c.word (c.page (.sqcq qid) + 4 * w) = c.cqPa qid / 4 + w := by
      rw [InitConfig.word, hv.v2p_add (p := .sqcq qid) hle (by omega), InitConfig.cqPa]
      omega
    rw [hword]
    exact (hend hpc).pages qid hq (Nat.lt_succ_of_le hle) w hw

/-- Every run of `__nvme_init`, with any memory and the controller in any state at first, whenever
the controller resets, gets ready, executes and completes. -/
theorem nvme_init_brings_up (hv : c.Valid) (mem : ℕ → ℕ) (ctrl : Controller) (steps : List InitStep)
    (hA : Meets (InitStep.step c) InitStep.Admissible steps (initStart mem ctrl)) :
    Always (InitStep.step c) (BroughtUp c) steps (initStart mem ctrl) :=
  always_of_meets (fun _ h => h.broughtUp hv) (initInv_step hv) (I := InitInv c) trivial hA

end Theorem

/-- One core, with pages that are mapped where they are. -/
def smallInit : InitConfig where
  nCore := 1
  qd := 1024
  pagemap := fun v => if v < 2 ^ 52 then some (2 ^ 63 + v) else none
  page := fun
    | .sqcq qid => 2 ^ 21 * (3 * qid)
    | .buf4k qid i => 2 ^ 21 * (3 * qid + 1 + i)
  rbuf := fun _ => 0
  queues := 64
  entries := 1024

theorem smallInit_huge {p : PageId} {n : ℕ} (hp : smallInit.page p = 2 ^ 21 * n) (hn : n < 8) :
    HugePage smallInit p (512 * n) := by
  refine ⟨by omega, by omega, by omega, fun i hi => ⟨2 ^ 63 + (512 * n + i), ?_, ?_, by omega⟩⟩
  · have hdiv : smallInit.page p / pageSize + i = 512 * n + i := by
      unfold pageSize
      omega
    rw [hdiv]
    exact if_pos (by omega)
  · rw [Nat.testBit_two_pow_add_eq, Nat.testBit_lt_two_pow (by omega)]
    rfl

theorem smallInit_uses {p : PageId} (hp : smallInit.Uses p) :
    ∃ n < 8, smallInit.page p = 2 ^ 21 * n := by
  have hn : n2mbPage smallInit.qd = 2 := by decide
  cases p with
  | sqcq qid =>
    have hq : qid ≤ 1 := hp
    exact ⟨3 * qid, by omega, rfl⟩
  | buf4k qid i =>
    obtain ⟨hq, hi⟩ := hp
    rw [hn] at hi
    have hq : qid ≤ 1 := hq
    exact ⟨3 * qid + 1 + i, by omega, rfl⟩

theorem smallInit_pa {p : PageId} (hp : smallInit.Uses p) : smallInit.pa p = smallInit.page p := by
  obtain ⟨n, hn, hpage⟩ := smallInit_uses hp
  have hpa := (smallInit_huge hpage hn).pa_eq
  unfold pageSize at hpa
  omega

theorem smallInit_valid : smallInit.Valid where
  cores := by decide
  queues := by decide
  two_le := by decide
  qd_le := by decide
  entries := by decide
  huge := fun p hp => by
    obtain ⟨n, hn, hpage⟩ := smallInit_uses hp
    exact ⟨_, smallInit_huge hpage hn⟩
  distinct := fun p p' hp hp' h => by
    rw [smallInit_pa hp, smallInit_pa hp'] at h
    have hn : n2mbPage smallInit.qd = 2 := by decide
    cases p with
    | sqcq q =>
      cases p' with
      | sqcq q' =>
        simp only [smallInit] at h
        have hq : q = q' := by omega
        rw [hq]
      | buf4k q' i' =>
        have hi := hp'.2
        rw [hn] at hi
        simp only [smallInit] at h
        omega
    | buf4k q i =>
      have hi := hp.2
      rw [hn] at hi
      cases p' with
      | sqcq q' =>
        simp only [smallInit] at h
        omega
      | buf4k q' i' =>
        have hi' := hp'.2
        rw [hn] at hi'
        simp only [smallInit] at h
        have hq : q = q' := by omega
        have hi : i = i' := by omega
        rw [hq, hi]
  rbuf := fun _ _ => rfl

/-- A controller without queues. -/
def idleController : Controller where
  cc := 0
  csts := 0
  asq := 0
  acq := 0
  aqa := 0
  cqs := fun _ => none
  sqs := fun _ => none
  sqTail := 0
  sqHead := 0
  pending := none
  posted := []
  refused := false

/-- The theorem at the run to the end that it says there is, for one core. -/
theorem nvme_init_brings_up_one : ∃ steps t,
    Runs (InitStep.step smallInit) InitStep.Admissible steps (initStart (fun _ => 0) idleController) t ∧
      t.pc = .returned ∧ t.ctrl.cqs 1 = some (v2p smallInit.pagemap (smallInit.getCqe 1 0), 1024) ∧
      t.ctrl.sqs 1 = some (v2p smallInit.pagemap (smallInit.getSqe 1 0), 1024, 1) := by
  obtain ⟨steps, t, hrun, ht⟩ :=
    (nvme_init_brings_up smallInit_valid (fun _ => 0) idleController [] trivial).head.finishes
  have hend := (nvme_init_brings_up smallInit_valid (fun _ => 0) idleController steps hrun.meets).at_end hrun.run
  exact ⟨steps, t, hrun, ht, hend.cqs ht 1, hend.sqs ht 1⟩

end Pthabt.Nvme
