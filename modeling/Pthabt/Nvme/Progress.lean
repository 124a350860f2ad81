import Pthabt.Lib.Progress
import Pthabt.Nvme.CheckSound
import Pthabt.Nvme.OneCore

/-! No call of the driver hangs. `new_sqe` polls for a free slot with the lock held, and `check_cq`
goes on while completions arrive; both come to an end once the drives have completed what was
submitted, for which they need nothing of the host. -/

namespace Pthabt.Nvme

open Lib Run

/-! ### The work that is left -/

/-- The steps that the host and the drive still take for a command. -/
def Stage.work : Stage → ℕ
  | .claimed => 8
  | .filled => 7
  | .submitted => 6
  | .executed _ => 5
  | .posted => 4
  | .consumed => 0

/-- The steps that the holder of the lock takes besides; `busy` says that its slot is not free. -/
def HostPc.work (busy : Bool) : HostPc → ℕ
  | .idle => 0
  | .newSqe _ => if busy then 13 else 11
  | .checkCq (some _) => 12
  | .copy (some _) _ => 11
  | .mark (some _) _ => 10
  | .fill _ _ => 2
  | .doorbell _ _ => 1
  | .checkCq none => 2
  | .copy none _ => 1
  | .mark none _ => 0

namespace Queue

def work (q : Queue) : ℕ := ∑ i ∈ Finset.range q.issued, (q.cmd i).stage.work

/-- `done_flag[sq_tail] == 0`. -/
def busy (q : Queue) : Bool := q.doneFlag q.sqTail = 0

def rank (q : Queue) : ℕ := q.work + q.pc.work q.busy

/-- The drive has completed all commands that were submitted. -/
def Ready (q : Queue) : Prop :=
  ∀ i < q.issued, (q.cmd i).stage ≠ .submitted ∧ ∀ e, (q.cmd i).stage ≠ .executed e

/-- What `done_flag` says of the slots that were in use. -/
structure Flagged (q : Queue) : Prop where
  held : ∀ t, q.doneFlag t = 0 → ∃ i < q.issued, (q.cmd i).stage ≠ .consumed ∧ (q.cmd i).cid = t
  used : ∀ i < q.issued, q.doneFlag (q.cmd i).cid ≤ 1

end Queue

/-! ### One queue -/

section Queue

variable {c : QpConfig} {q : Queue} {s : Port}

theorem work_setStage (cmd : ℕ → Cmd) {n i : ℕ} (hi : i < n) (st : Stage) :
    ∑ k ∈ Finset.range n, (setStage cmd i st k).stage.work + (cmd i).stage.work =
      ∑ k ∈ Finset.range n, (cmd k).stage.work + st.work := by
  have h := sum_change (f := fun k => (cmd k).stage.work) (g := fun k => (setStage cmd i st k).stage.work)
    (Finset.mem_range.mpr hi) fun k _ hk => by rw [setStage_of_ne cmd st hk]
  rwa [setStage_self] at h

theorem work_claim (cmd : ℕ → Cmd) (n : ℕ) (x : Cmd) :
    ∑ k ∈ Finset.range (n + 1), (Function.update cmd n x k).stage.work =
      ∑ k ∈ Finset.range n, (cmd k).stage.work + x.stage.work := by
  rw [Finset.sum_range_succ, Function.update_self]
  refine congrArg (· + x.stage.work) (Finset.sum_congr rfl fun k hk => ?_)
  rw [Function.update_of_ne (Nat.ne_of_lt (Finset.mem_range.mp hk))]

namespace Queue.Flagged

theorem newQueue (qd : ℕ) : Flagged (newQueue qd) where
  held t h := absurd h (by decide : (2 : ℕ) ≠ 0)
  used i hi := absurd hi (Nat.not_lt_zero i)

/-- A command goes on, but is not consumed. -/
theorem setStage (h : Flagged q) {q' : Queue} {i : ℕ} {st : Stage} (hi : q'.issued = q.issued)
    (hf : q'.doneFlag = q.doneFlag) (hc : q'.cmd = Nvme.setStage q.cmd i st) (hst : st ≠ .consumed) :
    Flagged q' where
  held t ht := by
    rw [hf] at ht
    obtain ⟨k, hk, hs, hcid⟩ := h.held t ht
    rw [hi, hc]
    refine ⟨k, hk, ?_, by rw [setStage_cid, hcid]⟩
    by_cases he : k = i
    · rw [he, setStage_self]
      exact hst
    · rwa [setStage_of_ne _ _ he]
  used k hk := by
    rw [hi] at hk
    rw [hf, hc, setStage_cid]
    exact h.used k hk

/-- Nothing that the flags speak of has changed. -/
theorem congr (h : Flagged q) {q' : Queue} (hi : q'.issued = q.issued) (hf : q'.doneFlag = q.doneFlag)
    (hc : q'.cmd = q.cmd) : Flagged q' where
  held := by
    rw [hi, hf, hc]
    exact h.held
  used := by
    rw [hi, hf, hc]
    exact h.used

theorem newSqe (h : Flagged q) (r : Request) : Flagged (newSqe c r q) := by
  unfold Nvme.newSqe
  split_ifs with hbusy
  · exact h.congr rfl rfl rfl
  · constructor
    · intro t ht
      dsimp only at ht ⊢
      by_cases he : t = q.sqTail
      · refine ⟨q.issued, Nat.lt_succ_self _, ?_, ?_⟩
        · rw [Function.update_self]
          exact fun hs => by cases hs
        · rw [Function.update_self, he]
      · rw [Function.update_of_ne he] at ht
        obtain ⟨i, hi, hs, hcid⟩ := h.held t ht
        have hne : i ≠ q.issued := Nat.ne_of_lt hi
        exact ⟨i, Nat.lt_succ_of_lt hi, by rwa [Function.update_of_ne hne], by rwa [Function.update_of_ne hne]⟩
    · refine forall_claim (P := fun _ x => Function.update q.doneFlag q.sqTail 0 x.cid ≤ 1)
        (fun i hi => ?_) ?_
      · by_cases he : (q.cmd i).cid = q.sqTail
        · rw [he, Function.update_self]
          exact Nat.zero_le _
        · rw [Function.update_of_ne he]
          exact h.used i hi
      · rw [Function.update_self]
        exact Nat.zero_le _

theorem mark (h : Flagged q) (hq : QueueInv c q) {back : Option Request} {cid : ℕ}
    (hpc : q.pc = .mark back cid) : Flagged (mark c back cid q) := by
  obtain ⟨i, -, hgetD, hcid, hi, hposted⟩ := hq.marking hpc
  constructor
  · intro t ht
    unfold Nvme.mark at ht ⊢
    dsimp only at ht ⊢
    rw [hgetD]
    by_cases he : t = cid
    · rw [he, Function.update_self] at ht
      exact absurd ht Nat.one_ne_zero
    · rw [Function.update_of_ne he] at ht
      obtain ⟨k, hk, hs, hkt⟩ := h.held t ht
      have hne : k ≠ i := by
        intro hki
        rw [hki, hcid] at hkt
        exact he hkt.symm
      exact ⟨k, hk, by rwa [setStage_of_ne _ _ hne], by rwa [setStage_of_ne _ _ hne]⟩
  · intro k hk
    unfold Nvme.mark at hk ⊢
    dsimp only at hk ⊢
    rw [setStage_cid]
    by_cases he : (q.cmd k).cid = cid
    · rw [he, Function.update_self]
    · rw [Function.update_of_ne he]
      exact h.used k hk

theorem host (h : Flagged s.queue) (hq : QueueInv c s.queue) : Flagged (hostStep c s).queue := by
  unfold hostStep
  cases hpc : s.queue.pc with
  | idle => exact h
  | newSqe r => exact h.newSqe r
  | fill r cid => exact h.setStage rfl rfl rfl fun hs => by cases hs
  | doorbell r cid => exact h.setStage rfl rfl rfl fun hs => by cases hs
  | checkCq back =>
    dsimp only
    unfold testPhase
    split_ifs <;> exact h.congr rfl rfl rfl
  | copy back cid =>
    dsimp only
    unfold copyOut
    dsimp only
    split_ifs <;> exact h.congr rfl rfl rfl
  | mark back cid => exact h.mark hq hpc

theorem exec (h : Flagged s.queue) (i : ℕ) : Flagged (exec i s).queue := by
  refine h.setStage (exec_issued i s) ?_ (exec_cmd i s) fun hs => by cases hs
  unfold Nvme.exec transfer
  dsimp only
  split_ifs <;> rfl

theorem step (h : Flagged s.queue) (hq : QueueInv c s.queue) (o : QueueStep) :
    Flagged (o.step c s).queue := by
  cases o with
  | request r => exact h.congr rfl rfl rfl
  | call => exact h.congr rfl rfl rfl
  | host => exact h.host hq
  | exec i => exact h.exec i
  | post i x =>
    simp only [QueueStep.step]
    split
    · exact h.setStage rfl rfl rfl fun hs => by cases hs
    · exact h

end Queue.Flagged

/-- When the drive and `check_cq` have done their part, all commands are over. -/
theorem QueueInv.all_consumed (h : QueueInv c q) (hr : q.Ready) (hpc : ¬ q.pc.Holding)
    (hnone : ¬ q.taken < q.posted.length) : ∀ i < q.issued, (q.cmd i).stage = .consumed := by
  intro i hi
  obtain ⟨hclaimed, hfilled⟩ := h.handed.none hpc hi
  obtain ⟨hsubmitted, hexecuted⟩ := hr i hi
  cases hs : (q.cmd i).stage with
  | claimed => exact absurd hs hclaimed
  | filled => exact absurd hs hfilled
  | submitted => exact absurd hs hsubmitted
  | executed e => exact absurd hs (hexecuted e)
  | posted =>
    have hmem := (h.ring.isPosted i hi).mp hs
    rw [List.drop_eq_nil_of_le (Nat.le_of_not_lt hnone)] at hmem
    cases hmem
  | consumed => rfl

/-- Where nobody holds the lock, the drive has completed all commands. -/
theorem QueueInv.completed (h : QueueInv c q) (hr : q.Ready) (hpc : q.pc = .idle) {i : ℕ} (hi : i < q.issued) :
    (q.cmd i).stage.Completed := by
  have hret := h.returned hpc hi
  obtain ⟨hsub, hexec⟩ := hr i hi
  cases hs : (q.cmd i).stage with
  | submitted => exact absurd hs hsub
  | executed e => exact absurd hs (hexec e)
  | posted => trivial
  | consumed => trivial
  | claimed =>
    rw [hs] at hret
    exact hret.elim
  | filled =>
    rw [hs] at hret
    exact hret.elim

theorem Queue.Flagged.not_busy (h : q.Flagged) (hall : ∀ i < q.issued, (q.cmd i).stage = .consumed) :
    q.busy = false := by
  rw [Queue.busy, decide_eq_false_iff_not]
  intro hbusy
  obtain ⟨i, hi, hs, -⟩ := h.held _ hbusy
  exact hs (hall i hi)

/-- Where the drive has completed all commands, each step brings the holder of the lock nearer to
the end of its call. -/
theorem QueueInv.host_rank_lt (h : QueueInv c s.queue) (hc : c.Valid) (hf : s.queue.Flagged)
    (hr : s.queue.Ready) (hpc : s.queue.pc ≠ .idle) : (hostStep c s).queue.rank < s.queue.rank := by
  unfold hostStep Queue.rank
  cases hp : s.queue.pc with
  | idle => exact absurd hp hpc
  | newSqe r =>
    dsimp only
    unfold Nvme.newSqe
    by_cases hbusy : s.queue.doneFlag s.queue.sqTail = 0
    · have hb : s.queue.busy = true := decide_eq_true hbusy
      rw [if_pos hbusy, hb]
      simp only [HostPc.work, Queue.work, if_true]
      omega
    · have hb : s.queue.busy = false := decide_eq_false hbusy
      rw [if_neg hbusy, hb]
      have hw := work_claim s.queue.cmd s.queue.issued ⟨r, s.queue.sqTail, .claimed⟩
      simp only [HostPc.work, Queue.work, Stage.work, Bool.false_eq_true, if_false] at hw ⊢
      omega
  | fill r cid =>
    obtain ⟨hpos, hlast⟩ := h.filling hp
    have hw := work_setStage s.queue.cmd hpos .filled
    rw [hlast] at hw
    dsimp only
    unfold Nvme.fill
    simp only [HostPc.work, Queue.work, Stage.work] at hw ⊢
    omega
  | doorbell r cid =>
    obtain ⟨hpos, hlast⟩ := h.ringing hp
    have hw := work_setStage s.queue.cmd hpos .submitted
    rw [hlast] at hw
    dsimp only
    unfold Nvme.doorbell
    simp only [HostPc.work, Queue.work, Stage.work] at hw ⊢
    omega
  | checkCq back =>
    dsimp only
    unfold Nvme.testPhase
    by_cases hphase : cqeP s.queue.sqcq s.queue.cqHead = s.queue.cqPhase
    · rw [if_pos hphase]
      cases back <;> simp only [HostPc.work, Queue.work] <;> omega
    · rw [if_neg hphase]
      have hnone : ¬ s.queue.taken < s.queue.posted.length := fun hlt =>
        hphase ((h.ring.phase_iff hc.pos).mpr hlt)
      have hfree := hf.not_busy (h.all_consumed hr (by rw [hp]; exact id) hnone)
      cases back with
      | none =>
        simp only [HostPc.work, Queue.work]
        omega
      | some r =>
        have hfree' : Queue.busy { s.queue with pc := .newSqe r } = false := hfree
        rw [hfree']
        simp only [HostPc.work, Queue.work, Bool.false_eq_true, if_false]
        omega
  | copy back cid =>
    dsimp only
    unfold Nvme.copyOut
    dsimp only
    split_ifs <;> cases back <;> simp only [HostPc.work, Queue.work] <;> omega
  | mark back cid =>
    obtain ⟨i, -, hgetD, -, hi, hposted⟩ := h.marking hp
    have hw := work_setStage s.queue.cmd hi .consumed
    rw [hposted] at hw
    dsimp only
    unfold Nvme.mark
    rw [hgetD]
    cases back <;> simp only [HostPc.work, Queue.work, Stage.work] at hw ⊢ <;> omega

/-- When `check_cq` finds no completion and returns, all flags are set. -/
theorem QueueInv.done_of_host (h : QueueInv c s.queue) (hc : c.Valid) (hf : s.queue.Flagged)
    (hr : s.queue.Ready) (hpc : s.queue.pc ≠ .idle) (hserves : s.queue.pc.serves = none)
    (hidle : (hostStep c s).queue.pc = .idle) {i : ℕ} (hi : i < s.queue.issued) :
    (hostStep c s).queue.doneFlag (s.queue.cmd i).cid = 1 := by
  unfold hostStep at hidle ⊢
  cases hp : s.queue.pc with
  | idle => exact absurd hp hpc
  | newSqe r | fill r cid | doorbell r cid =>
    rw [hp] at hserves
    cases hserves
  | copy back cid =>
    rw [hp] at hidle
    dsimp only at hidle
    unfold Nvme.copyOut at hidle
    dsimp only at hidle
    split_ifs at hidle
  | mark back cid =>
    rw [hp] at hidle
    cases hidle
  | checkCq back =>
    rw [hp] at hidle
    dsimp only at hidle ⊢
    unfold Nvme.testPhase at hidle ⊢
    by_cases hphase : cqeP s.queue.sqcq s.queue.cqHead = s.queue.cqPhase
    · rw [if_pos hphase] at hidle
      cases hidle
    · rw [if_neg hphase]
      have hnone : ¬ s.queue.taken < s.queue.posted.length := fun hlt =>
        hphase ((h.ring.phase_iff hc.pos).mpr hlt)
      have hall := h.all_consumed hr (by rw [hp]; exact id) hnone
      have hset : s.queue.doneFlag (s.queue.cmd i).cid ≠ 0 := by
        intro hzero
        obtain ⟨k, hk, hs, -⟩ := hf.held _ hzero
        exact hs (hall k hk)
      exact Nat.le_antisymm (hf.used i hi) (Nat.one_le_iff_ne_zero.mpr hset)

/-- Executing a command is work done. -/
theorem exec_rank_lt {i : ℕ} (hi : i < s.queue.issued) (hs : (s.queue.cmd i).stage = .submitted) :
    (exec i s).queue.rank < s.queue.rank := by
  have hw := work_setStage s.queue.cmd hi (.executed (readSqe s.queue.sqcq (s.queue.cmd i).cid))
  rw [hs] at hw
  have hbusy : (exec i s).queue.busy = s.queue.busy := by
    unfold Nvme.exec transfer
    dsimp only
    split_ifs <;> rfl
  unfold Queue.rank Queue.work
  rw [hbusy, exec_pc, exec_issued, exec_cmd]
  simp only [Stage.work] at hw ⊢
  omega

theorem post_step {i : ℕ} {e : Sqe} (hs : (s.queue.cmd i).stage = .executed e) (x : Cqe) :
    (QueueStep.post i x).step c s = { s with queue := post c i e x s.queue } := by
  simp only [QueueStep.step, hs]

theorem post_rank_lt {i : ℕ} (hi : i < q.issued) {e : Sqe} (hs : (q.cmd i).stage = .executed e) (x : Cqe) :
    (post c i e x q).rank < q.rank := by
  have hw := work_setStage q.cmd hi .posted
  rw [hs] at hw
  have hbusy : (post c i e x q).busy = q.busy := rfl
  unfold Queue.rank
  rw [hbusy]
  simp only [post, Queue.work, Stage.work] at hw ⊢
  omega

/-- At most `QD` commands are in progress. -/
theorem QueueInv.rank_le (h : QueueInv c q) : q.rank ≤ 8 * c.qd + 13 := by
  have hwork : q.work ≤ 8 * c.qd := by
    have hzero : ∀ i ∈ Finset.range q.issued, i ∉ (Finset.range q.issued).filter
        (fun i => (q.cmd i).stage.work ≠ 0) → (q.cmd i).stage.work = 0 := by
      intro i hi hni
      by_contra hne
      exact hni (Finset.mem_filter.mpr ⟨hi, hne⟩)
    have hbound : ∀ st : Stage, st.work ≤ 8 := by
      intro st
      cases st <;> simp [Stage.work]
    have hcard : ((Finset.range q.issued).filter (fun i => (q.cmd i).stage.work ≠ 0)).card ≤ c.qd := by
      rw [← Finset.card_range c.qd]
      have hbusy : ∀ i ∈ (Finset.range q.issued).filter (fun i => (q.cmd i).stage.work ≠ 0),
          i < q.issued ∧ (q.cmd i).stage ≠ .consumed := by
        intro i hi
        obtain ⟨hi, hne⟩ := Finset.mem_filter.mp hi
        refine ⟨Finset.mem_range.mp hi, fun hs => hne ?_⟩
        rw [hs]
        rfl
      refine Finset.card_le_card_of_injOn (fun i => (q.cmd i).cid) (fun i hi => ?_) fun i hi k hk he => ?_
      · exact Finset.mem_coe.mpr (Finset.mem_range.mpr (h.slots.cid_lt i (hbusy i hi).1))
      · exact h.slots.distinct i (hbusy i hi).1 k (hbusy k hk).1 (hbusy i hi).2 (hbusy k hk).2 he
    rw [Queue.work, ← Finset.sum_subset (Finset.filter_subset _ _) hzero, Nat.mul_comm]
    exact (Finset.sum_le_card_nsmul _ _ 8 fun i _ => hbound _).trans (Nat.mul_le_mul_right 8 hcard)
  have hpc : q.pc.work q.busy ≤ 13 := by
    cases q.pc with
    | newSqe r =>
      simp only [HostPc.work]
      split_ifs <;> omega
    | checkCq back | copy back cid | mark back cid => cases back <;> simp [HostPc.work]
    | _ => simp [HostPc.work]
  exact Nat.add_le_add hwork hpc

end Queue

/-! ### All queues -/

section Driver

variable {c : Config} {S : Driver} {o : DriverStep}

def Driver.rank (c : Config) (S : Driver) : ℕ :=
  ∑ did ∈ Finset.range c.nd, ∑ core ∈ Finset.range c.nCore, (S.queue did core).rank

/-- The flags of all queues. -/
def Driver.Flagged (c : Config) (S : Driver) : Prop :=
  ∀ did < c.nd, ∀ core < c.nCore, (S.queue did core).Flagged

/-- The drives have completed all commands. -/
def Driver.Ready (c : Config) (S : Driver) : Prop :=
  ∀ did < c.nd, ∀ core < c.nCore, (S.queue did core).Ready

/-- No lock is held and all commands were completed. -/
def Driver.AtRest (c : Config) (S : Driver) : Prop :=
  ∀ did < c.nd, ∀ core < c.nCore, (S.queue did core).pc = .idle ∧
    ∀ i < (S.queue did core).issued, ((S.queue did core).cmd i).stage.Completed

/-- The holder of a lock or a drive goes on. -/
def DriverStep.GoesOn : DriverStep → Prop
  | host .. | exec .. | post .. => True
  | _ => False

theorem Driver.Flagged.init (c : Config) (disk : ℕ → ℕ → Byte) (user : ℕ → Byte) :
    (nvmeInit c disk user).Flagged c := fun _ _ _ _ => .newQueue c.qd

theorem Driver.Flagged.next (h : S.Flagged c) (hinv : DriverInv c S) :
    (o.next c S).Flagged c := by
  intro did hd core hk
  by_cases hq : did = o.did c ∧ core = o.core c
  · obtain ⟨rfl, rfl⟩ := hq
    have hstep := (h _ hd _ hk).step (s := S.port (o.did c) (o.core c)) (hinv _ hd _ hk) o.on
    rw [← port_next] at hstep
    exact hstep
  · rw [queue_next_of_ne c o S hq]
    exact h did hd core hk

/-- A step changes the rank of its queue. -/
theorem driver_rank_next (hd : o.did c < c.nd) (hk : o.core c < c.nCore) :
    (o.next c S).rank c + (S.queue (o.did c) (o.core c)).rank =
      S.rank c + ((o.next c S).queue (o.did c) (o.core c)).rank := by
  have hinner := sum_change (f := fun core => (S.queue (o.did c) core).rank)
    (g := fun core => ((o.next c S).queue (o.did c) core).rank) (Finset.mem_range.mpr hk)
    fun core _ hne => by rw [queue_next_of_ne c o S fun he => hne he.2]
  have houter := sum_change
    (f := fun did => ∑ core ∈ Finset.range c.nCore, (S.queue did core).rank)
    (g := fun did => ∑ core ∈ Finset.range c.nCore, ((o.next c S).queue did core).rank)
    (Finset.mem_range.mpr hd) fun did _ hne => Finset.sum_congr rfl fun core _ => by
      rw [queue_next_of_ne c o S fun he => hne he.1]
  unfold Driver.rank
  omega

/-- A drive that has a command left does some of its work. -/
theorem exists_device (hr : ¬ S.Ready c) : ∃ o : DriverStep, ¬ o.IsHost ∧ o.Admissible c S ∧
    (o.next c S).rank c < S.rank c := by
  unfold Driver.Ready Queue.Ready at hr
  push Not at hr
  obtain ⟨did, hd, core, hk, i, hi, hs⟩ := hr
  by_cases hsub : ((S.queue did core).cmd i).stage = .submitted
  · have hA : (DriverStep.exec did core i).Admissible c S := ⟨hd, hk, ⟨hi, hsub⟩, fun rid hrid => by cases hrid⟩
    refine ⟨.exec did core i, id, hA, ?_⟩
    have hlt : (((DriverStep.exec did core i).next c S).port did core).queue.rank <
        (S.queue did core).rank := by
      have hport := port_next c (.exec did core i) S
      simp only [DriverStep.did, DriverStep.core] at hport
      rw [hport]
      exact exec_rank_lt (s := S.port did core) hi hsub
    have hsum := driver_rank_next (S := S) hA.1 hA.2.1
    simp only [DriverStep.did, DriverStep.core, Driver.port] at hsum hlt
    omega
  · obtain ⟨e, he⟩ := hs hsub
    have hA : (DriverStep.post did core i ⟨0, 0, 0, 0, false, 0⟩).Admissible c S :=
      ⟨hd, hk, ⟨hi, e, he⟩, fun rid hrid => by cases hrid⟩
    refine ⟨.post did core i ⟨0, 0, 0, 0, false, 0⟩, id, hA, ?_⟩
    have hlt : (((DriverStep.post did core i ⟨0, 0, 0, 0, false, 0⟩).next c S).port did core).queue.rank <
        (S.queue did core).rank := by
      have hport := port_next c (.post did core i ⟨0, 0, 0, 0, false, 0⟩) S
      simp only [DriverStep.did, DriverStep.core] at hport
      rw [hport]
      rw [DriverStep.on, post_step (s := S.port did core) he]
      exact post_rank_lt hi he _
    have hsum := driver_rank_next (S := S) hA.1 hA.2.1
    simp only [DriverStep.did, DriverStep.core, Driver.port] at hsum hlt
    omega

theorem host_admissible_of_lt {did core : ℕ} (hd : did < c.nd) (hk : core < c.nCore) :
    (DriverStep.host did core).Admissible c S := ⟨hd, hk, trivial, fun rid hrid => by cases hrid⟩

/-- A drive does not touch the flags. -/
theorem doneFlag_next (ho : ¬ o.IsHost) (did core : ℕ) :
    ((o.next c S).queue did core).doneFlag = (S.queue did core).doneFlag := by
  by_cases hq : did = o.did c ∧ core = o.core c
  · obtain ⟨rfl, rfl⟩ := hq
    change ((o.next c S).port (o.did c) (o.core c)).queue.doneFlag = _
    rw [port_next]
    cases o with
    | exec did core i =>
      simp only [DriverStep.on, QueueStep.step]
      unfold Nvme.exec transfer
      dsimp only
      split_ifs <;> rfl
    | post did core i x =>
      simp only [DriverStep.on, QueueStep.step]
      split <;> rfl
    | _ => exact absurd trivial ho
  · rw [queue_next_of_ne c o S hq]

/-- A command keeps its number and its slot. -/
theorem DriverInv.issued_next (hinv : DriverInv c S) (o : DriverStep) {did core i : ℕ} (hd : did < c.nd)
    (hk : core < c.nCore) (hi : i < (S.queue did core).issued) :
    i < ((o.next c S).queue did core).issued ∧
      (((o.next c S).queue did core).cmd i).cid = ((S.queue did core).cmd i).cid := by
  by_cases hq : did = o.did c ∧ core = o.core c
  · obtain ⟨rfl, rfl⟩ := hq
    change i < ((o.next c S).port (o.did c) (o.core c)).queue.issued ∧
      (((o.next c S).port (o.did c) (o.core c)).queue.cmd i).cid = _
    rw [port_next]
    cases o.on with
    | request r => exact ⟨hi, rfl⟩
    | call => exact ⟨hi, rfl⟩
    | host =>
      have hkeep := (hinv _ hd _ hk).keeps_host (s := S.port (o.did c) (o.core c))
      exact ⟨lt_of_lt_of_le hi hkeep.issued, hkeep.cid i hi⟩
    | exec k =>
      rw [QueueStep.step, exec_issued, exec_cmd, setStage_cid]
      exact ⟨hi, rfl⟩
    | post k x =>
      simp only [QueueStep.step]
      split
      · simp only [post, setStage_cid]
        exact ⟨hi, rfl⟩
      · exact ⟨hi, rfl⟩
  · rw [queue_next_of_ne c o S hq]
    exact ⟨hi, rfl⟩

/-- Another call of the driver. -/
theorem rank_call_le {n : ℕ} (hd : o.did c < c.nd) (hk : o.core c < c.nCore)
    (hidle : (S.queue (o.did c) (o.core c)).pc = .idle)
    (hq : ((o.next c S).queue (o.did c) (o.core c)).work ≤ (S.queue (o.did c) (o.core c)).work)
    (hpc : ∀ busy, ((o.next c S).queue (o.did c) (o.core c)).pc.work busy ≤ n) :
    (o.next c S).rank c ≤ S.rank c + n := by
  have hsum := driver_rank_next (S := S) hd hk
  have hpc := hpc ((o.next c S).queue (o.did c) (o.core c)).busy
  unfold Queue.rank at hsum
  rw [hidle, HostPc.work] at hsum
  omega

theorem rank_request_le {r : Request} (hon : o.on = .request r) (hd : o.did c < c.nd) (hk : o.core c < c.nCore)
    (hidle : (S.queue (o.did c) (o.core c)).pc = .idle) : (o.next c S).rank c ≤ S.rank c + 13 := by
  have hport := congrArg Port.queue (port_next c o S)
  rw [hon] at hport
  have hq : (o.next c S).queue (o.did c) (o.core c) =
      { S.queue (o.did c) (o.core c) with pc := .newSqe r } := hport
  refine rank_call_le hd hk hidle ?_ fun busy => ?_
  · rw [hq]
    rfl
  · rw [hq, HostPc.work]
    split_ifs <;> omega

theorem rank_check_le {rid : ℤ} (hd : ridDid c rid < c.nd) (hk : ridCore c rid < c.nCore)
    (hidle : (S.queue (ridDid c rid) (ridCore c rid)).pc = .idle) :
    ((DriverStep.nvmeCheck rid).next c S).rank c ≤ S.rank c + 2 := by
  have hport := congrArg Port.queue (port_next c (.nvmeCheck rid) S)
  have hq : ((DriverStep.nvmeCheck rid).next c S).queue (ridDid c rid) (ridCore c rid) =
      { S.queue (ridDid c rid) (ridCore c rid) with pc := .checkCq none } := hport
  refine rank_call_le (o := .nvmeCheck rid) hd hk hidle ?_ fun busy => ?_
  · rw [DriverStep.did, DriverStep.core, hq]
    rfl
  · rw [DriverStep.did, DriverStep.core, hq, HostPc.work]

/-- When the drives are done, the holder of a lock comes nearer to its end. -/
theorem host_rank_next_lt (hinv : DriverInv c S) (hv : c.Valid) (hf : S.Flagged c) (hr : S.Ready c) {did core : ℕ}
    (hd : did < c.nd) (hk : core < c.nCore) (hpc : (S.queue did core).pc ≠ .idle) :
    ((DriverStep.host did core).next c S).rank c < S.rank c := by
  have hlt := (hinv did hd core hk).host_rank_lt (s := S.port did core) (hv.qp did hd core hk)
    (hf did hd core hk) (hr did hd core hk) hpc
  have hport := port_next c (.host did core) S
  have hsum := driver_rank_next (S := S) (o := .host did core) hd hk
  simp only [DriverStep.did, DriverStep.core, DriverStep.on] at hport hsum
  have hq : ((DriverStep.host did core).next c S).queue did core =
      (hostStep (c.qp did core) (S.port did core)).queue := congrArg Port.queue hport
  rw [hq] at hsum
  have hself : (S.port did core).queue = S.queue did core := rfl
  rw [hself] at hlt
  omega

/-- A driver that is not at rest can go on. -/
theorem DriverInv.goesOn (hinv : DriverInv c S) (hv : c.Valid) (hf : S.Flagged c) (hrest : ¬ S.AtRest c) :
    ∃ o : DriverStep, o.GoesOn ∧ o.Admissible c S ∧ (o.next c S).rank c < S.rank c := by
  by_cases hr : S.Ready c
  · -- the drives are done, so some lock is held
    by_contra hno
    refine hrest fun did hd core hk => ?_
    have hidle : (S.queue did core).pc = .idle := by
      by_contra hpc
      exact hno ⟨.host did core, trivial, host_admissible_of_lt hd hk, host_rank_next_lt hinv hv hf hr hd hk hpc⟩
    exact ⟨hidle, fun i hi => (hinv did hd core hk).completed (hr did hd core hk) hidle hi⟩
  · obtain ⟨o, ho, hA, hlt⟩ := exists_device hr
    refine ⟨o, ?_, hA, hlt⟩
    cases o with
    | exec did core i => trivial
    | post did core i x => trivial
    | _ => exact absurd trivial ho

/-- A read that is submitted on one drive, and a write that holds the lock of the other. -/
def halfway : List DriverStep :=
  [.nvmeReadReq 0 1 0 512 20000, .host 0 0, .host 0 0, .host 0 0, .nvmeWriteReq 8 1 0 512 8192, .host 1 0]

end Driver

end Pthabt.Nvme
