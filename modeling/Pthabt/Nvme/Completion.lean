import Pthabt.Lib.Run
import Pthabt.Nvme.QueueMemory

/-! `check_cq` against a drive that posts completions at any time: between two calls,
between the test of the phase bit and the body of the loop, and between two rounds. The
drive posts in ring order, inverts its phase tag at each wrap and never has more than
`n_cqe` entries that were not consumed. -/

namespace Pthabt.Nvme

open Lib Run PhaseRing

/-- Where `check_cq` is: outside, before a test of the phase bit, or in the loop body. -/
inductive CheckPc where
  | idle
  | test
  | body
  deriving DecidableEq

/-- A completion queue. `processed` are the identifiers whose `done_flag` was set and `posted`
those the drive has written, both in order. -/
structure CompletionQueue where
  sqcq : ℕ → ℕ
  cqHead : ℕ
  cqPhase : Bool
  pc : CheckPc
  processed : List ℕ
  tail : ℕ
  phaseTag : Bool
  posted : List ℕ

inductive CqStep where
  | call
  | check
  | post (c : Cqe)

namespace CompletionQueue

/-- Zeroed memory, `cq_head = 0` and `cq_phase = 1`. -/
def zeroed : CompletionQueue := ⟨fun _ => 0, 0, true, .idle, [], 0, true, []⟩

def call (s : CompletionQueue) : CompletionQueue := { s with pc := .test }

/-- One test, or one round of the loop, of `check_cq`. -/
def check (nCqe : ℕ) (s : CompletionQueue) : CompletionQueue :=
  match s.pc with
  | .idle => s
  | .test => { s with pc := if cqeP s.sqcq s.cqHead = s.cqPhase then .body else .idle }
  | .body =>
    { s with
      processed := s.processed ++ [cqeCid s.sqcq s.cqHead]
      cqHead := nextHead nCqe s.cqHead
      cqPhase := nextPhase nCqe s.cqHead s.cqPhase
      pc := .test }

/-- The drive writes its next entry with its phase tag. -/
def post (nCqe : ℕ) (c : Cqe) (s : CompletionQueue) : CompletionQueue :=
  { s with
    sqcq := writeCqe s.sqcq s.tail { c with p := s.phaseTag }
    tail := nextHead nCqe s.tail
    phaseTag := nextPhase nCqe s.tail s.phaseTag
    posted := s.posted ++ [c.cid] }

end CompletionQueue

def CqStep.step (nCqe : ℕ) : CqStep → CompletionQueue → Outcome CompletionQueue
  | .call, s => .ok s.call
  | .check, s => .ok (s.check nCqe)
  | .post c, s => .ok (s.post nCqe c)

/-- Calls do not overlap; an identifier has 16 bits; the queue does not overflow. -/
def CqStep.Admissible (nCqe : ℕ) : CqStep → CompletionQueue → Prop
  | .call, s => s.pc = .idle
  | .check, _ => True
  | .post c, s => c.cid < 2 ^ 16 ∧ s.posted.length < s.processed.length + nCqe

/-- Consumption is exactly once and in order; `check_cq` takes only an entry that was posted and
not consumed; and a call without posts during it ends with everything consumed. -/
structure ExactlyOnce (nCqe : ℕ) (s : CompletionQueue) : Prop where
  inOrder : s.processed <+: s.posted
  head : s.cqHead = s.processed.length % nCqe
  fresh : s.pc = .body → s.posted[s.processed.length]? = some (cqeCid s.sqcq s.cqHead)
  ends : s.pc = .idle → ∃ k, ((CompletionQueue.check nCqe)^[k] s.call).pc = .idle
  drained : s.pc = .idle → ∀ k, ((CompletionQueue.check nCqe)^[k] s.call).pc = .idle →
    ((CompletionQueue.check nCqe)^[k] s.call).processed = s.posted ∧
      ((CompletionQueue.check nCqe)^[k] s.call).cqHead = s.posted.length % nCqe

/-- Invariant of a completion queue. -/
structure CqInv (nCqe : ℕ) (s : CompletionQueue) : Prop where
  ring : Holds nCqe (cqSlot s.sqcq) s.posted
  inOrder : s.processed <+: s.posted
  bound : s.posted.length ≤ s.processed.length + nCqe
  head : s.cqHead = s.processed.length % nCqe
  phase : s.cqPhase = tag nCqe s.processed.length
  tail : s.tail = s.posted.length % nCqe
  phaseTag : s.phaseTag = tag nCqe s.posted.length
  pending : s.pc = .body → s.processed.length < s.posted.length

variable {n : ℕ}

/-- The phase bit matches exactly when an entry was not consumed. -/
theorem CqInv.phase_iff {s : CompletionQueue} (h : CqInv n s) (hn : 0 < n) :
    cqeP s.sqcq s.cqHead = s.cqPhase ↔ s.processed.length < s.posted.length := by
  rw [h.head, h.phase]
  exact h.ring.tag_iff hn h.inOrder.length_le h.bound

/-- The entry at the head is the next one posted. -/
theorem CqInv.head_cid {s : CompletionQueue} (h : CqInv n s)
    (hlt : s.processed.length < s.posted.length) :
    cqeCid s.sqcq s.cqHead = s.posted[s.processed.length] := by
  have hf := h.ring.fresh hlt h.bound
  rw [h.head]
  exact congrArg Prod.fst hf

theorem inv_zeroed : CqInv n .zeroed :=
  ⟨holds_nil fun _ _ => by simp [cqSlot, cqeP, CompletionQueue.zeroed], List.nil_prefix, Nat.zero_le _, (Nat.zero_mod n).symm,
    (tag_zero n).symm, (Nat.zero_mod n).symm, (tag_zero n).symm, fun h => by cases h⟩

theorem CqInv.call {s : CompletionQueue} (h : CqInv n s) : CqInv n s.call :=
  { h with pending := fun hp => by cases hp }

/-- The elements taken so far and the next one are again a beginning. -/
theorem concat_isPrefix {α : Type*} {xs ys : List α} (h : xs <+: ys) (hlt : xs.length < ys.length) :
    xs ++ [ys[xs.length]] <+: ys := by
  have he := List.prefix_iff_eq_take.mp h
  rw [List.prefix_iff_eq_take, List.length_append, List.length_singleton,
    ← List.take_append_getElem hlt, ← he]

theorem CqInv.check {s : CompletionQueue} (h : CqInv n s) (hn : 0 < n) : CqInv n (s.check n) := by
  cases hpc : s.pc with
  | idle =>
    rw [CompletionQueue.check, hpc]
    exact h
  | test =>
    simp only [CompletionQueue.check, hpc]
    refine { h with pending := fun hp => ?_ }
    by_cases ht : cqeP s.sqcq s.cqHead = s.cqPhase
    · exact (h.phase_iff hn).mp ht
    · simp [ht] at hp
  | body =>
    have hlt := h.pending hpc
    simp only [CompletionQueue.check, hpc, h.head_cid hlt]
    refine ⟨h.ring, concat_isPrefix h.inOrder hlt, ?_, ?_, ?_, h.tail, h.phaseTag,
      fun hp => by cases hp⟩
    · have := h.bound
      simp only [List.length_append, List.length_singleton]
      omega
    · simp only [List.length_append, List.length_singleton, h.head]
      exact nextHead_mod hn _
    · simp only [List.length_append, List.length_singleton, h.head, h.phase]
      exact nextPhase_tag hn _

theorem CqInv.post {s : CompletionQueue} (h : CqInv n s) (hn : 0 < n) {c : Cqe}
    (hc : c.cid < 2 ^ 16) (hroom : s.posted.length < s.processed.length + n) :
    CqInv n (s.post n c) := by
  refine ⟨?_, ?_, ?_, h.head, h.phase, ?_, ?_, fun hp => ?_⟩
  · change Holds n (cqSlot (writeCqe s.sqcq s.tail { c with p := s.phaseTag })) _
    rw [cqSlot_writeCqe (c := { c with p := s.phaseTag }) _ _ hc, h.tail, h.phaseTag]
    exact h.ring.post c.cid
  · exact h.inOrder.trans (List.prefix_append _ _)
  · simp only [CompletionQueue.post, List.length_append, List.length_singleton]
    omega
  · simp only [CompletionQueue.post, List.length_append, List.length_singleton, h.tail]
    exact nextHead_mod hn _
  · simp only [CompletionQueue.post, List.length_append, List.length_singleton, h.tail, h.phaseTag]
    exact nextPhase_tag hn _
  · have := h.pending hp
    simp only [CompletionQueue.post, List.length_append, List.length_singleton]
    omega

theorem inv_step (hn : 0 < n) (o : CqStep) (s : CompletionQueue) (h : CqInv n s)
    (hA : o.Admissible n s) : (o.step n s).Safe (CqInv n) := by
  cases o with
  | call => exact h.call
  | check => exact h.check hn
  | post c => exact h.post hn hA.1 hA.2

/-! ### Calls without posts -/

theorem check_idle {s : CompletionQueue} (h : s.pc = .idle) : s.check n = s := by
  simp [CompletionQueue.check, h]

@[simp] theorem check_posted (s : CompletionQueue) : (s.check n).posted = s.posted := by
  cases hpc : s.pc <;> simp [CompletionQueue.check, hpc]

theorem iterate_idle {s : CompletionQueue} (h : s.pc = .idle) (k : ℕ) :
    (CompletionQueue.check n)^[k] s = s := Function.iterate_fixed (check_idle h) k

/-- A call ends in one state only. -/
theorem idle_unique {s : CompletionQueue} {j k : ℕ}
    (hj : ((CompletionQueue.check n)^[j] s).pc = .idle)
    (hk : ((CompletionQueue.check n)^[k] s).pc = .idle) :
    (CompletionQueue.check n)^[j] s = (CompletionQueue.check n)^[k] s := by
  rcases Nat.le_total j k with h | h
  · rw [← Nat.sub_add_cancel h, Function.iterate_add_apply, iterate_idle hj]
  · rw [← Nat.sub_add_cancel h, Function.iterate_add_apply, iterate_idle hk]

theorem check_test {s : CompletionQueue} (h : CqInv n s) (hn : 0 < n) (hpc : s.pc = .test) :
    (s.check n).pc = if s.processed.length < s.posted.length then .body else .idle := by
  simp only [CompletionQueue.check, hpc, h.phase_iff hn]

theorem check_body {s : CompletionQueue} (hpc : s.pc = .body) :
    (s.check n).pc = .test ∧ (s.check n).processed.length = s.processed.length + 1 := by
  simp [CompletionQueue.check, hpc]

theorem check_test_processed {s : CompletionQueue} (hpc : s.pc = .test) :
    (s.check n).processed = s.processed := by simp [CompletionQueue.check, hpc]

/-- From a test on, `check_cq` ends with everything consumed; the induction is on the number of
entries that are not. -/
theorem drain (hn : 0 < n) : ∀ (m : ℕ) {s : CompletionQueue}, CqInv n s → s.pc = .test →
    s.posted.length - s.processed.length = m →
      ∃ k, ((CompletionQueue.check n)^[k] s).pc = .idle ∧
        ((CompletionQueue.check n)^[k] s).processed = s.posted ∧
        CqInv n ((CompletionQueue.check n)^[k] s)
  | 0, s, h, hpc, hm => by
    have hle := h.inOrder.length_le
    refine ⟨1, ?_, ?_, h.check hn⟩
    · rw [Function.iterate_one, check_test h hn hpc, if_neg (by omega)]
    · rw [Function.iterate_one, check_test_processed hpc]
      exact h.inOrder.eq_of_length (by omega)
  | m + 1, s, h, hpc, hm => by
    have hbody : (s.check n).pc = .body := by rw [check_test h hn hpc, if_pos (by omega)]
    obtain ⟨htest, hlen⟩ := check_body hbody (n := n)
    have hpend : ((s.check n).check n).posted.length - ((s.check n).check n).processed.length = m := by
      rw [hlen, check_test_processed hpc, check_posted, check_posted]
      omega
    obtain ⟨k, hidle, hall, hinv⟩ := drain hn m ((h.check hn).check hn) htest hpend
    rw [check_posted, check_posted] at hall
    exact ⟨k + 2, hidle, hall, hinv⟩

theorem CqInv.exactlyOnce {s : CompletionQueue} (h : CqInv n s) (hn : 0 < n) :
    ExactlyOnce n s := by
  obtain ⟨k, hidle, hall, hinv⟩ := drain hn _ h.call rfl rfl
  refine ⟨h.inOrder, h.head, fun hpc => ?_, fun _ => ⟨k, hidle⟩, fun _ j hj => ?_⟩
  · have hlt := h.pending hpc
    rw [h.head_cid hlt]
    exact List.getElem?_eq_getElem hlt
  · rw [idle_unique hj hidle]
    refine ⟨hall, ?_⟩
    rw [hinv.head, hall]
    rfl

/-- In every run, completions are consumed exactly once and in order. -/
theorem exactly_once (hn : 1 ≤ n) (steps : List CqStep)
    (hA : Meets (CqStep.step n) (CqStep.Admissible n) steps .zeroed) :
    Always (CqStep.step n) (ExactlyOnce n) steps .zeroed :=
  always_of_meets (fun _ h => h.exactlyOnce hn) (inv_step hn) inv_zeroed hA

/-- The theorem at a queue of one entry, posted again between the two rounds of a call. -/
theorem exactly_once_one :
    Always (CqStep.step 1) (ExactlyOnce 1)
      [.post ⟨0, 0, 0, 5, true, 0⟩, .call, .check, .check, .post ⟨0, 0, 0, 6, true, 0⟩, .check,
        .check, .check]
      .zeroed := by
  refine exactly_once le_rfl _ ?_
  exact ⟨⟨by decide, by decide⟩, rfl, trivial, trivial, ⟨by decide, by decide⟩, trivial, trivial,
    trivial, trivial⟩

end Pthabt.Nvme
