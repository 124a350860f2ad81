import Pthabt.IoUring.Chunks
import Pthabt.IoUring.Identifiers

/-! What `hook_function` (`hook.c`) returns for a call that it passes to the ring.
`__io_uring_check` keeps a flag of the result of a chunk, and `hook_function` returns `count`
whatever the results were. The call runs on a core where nothing else is in progress. A phase says
how far it is, and each step of the core is one between phases. -/

namespace Pthabt.IoUring

open Run

/-- What the kernel answers for the chunks of a transfer: never more than was asked for. -/
structure Results (io : Io) where
  res : ℕ → ℤ
  le (k : ℕ) : k * io.unit < io.count → res k ≤ io.sz (k * io.unit)

theorem Io.remaining_lt (io : Io) {k : ℕ} (h : k * io.unit < io.count) :
    io.count - (k + 1) * io.unit < io.count - k * io.unit := by
  have := io.unit_pos
  rw [Nat.succ_mul]
  omega

/-- The bytes that the chunks from number `k` on transfer before the first gap. -/
def Io.contiguous (io : Io) (res : ℕ → ℤ) (k : ℕ) : ℤ :=
  if k * io.unit < io.count then
    if res k < io.sz (k * io.unit) then max (res k) 0 else res k + io.contiguous res (k + 1)
  else 0
termination_by io.count - k * io.unit
decreasing_by exact io.remaining_lt ‹_›

/-- The bytes transferred from the start of the range on, or the error when there are none. -/
def Io.report (io : Io) (res : ℕ → ℤ) : ℤ :=
  if 0 < io.count ∧ res 0 < 0 then res 0 else io.contiguous res 0

/-- A core while `hook_function` handles a call, and what it has returned. -/
structure Handler where
  core : Core
  ret : Option ℤ

/-- The ULT of the call goes on, or the kernel completes a request. -/
inductive HandlerStep where
  | next
  | post (n : ℕ)

/-- The next step of the call, and `return count` after the last one. -/
def Handler.next (c : RwCall) (u : ℕ) (s : Handler) : Outcome Handler :=
  (s.core.next u).map fun core => ⟨core, if core.pc u = .idle then some c.io.count else s.ret⟩

/-- `b` requests were made on the core before the call. -/
def HandlerStep.step (c : RwCall) (u b : ℕ) (res : ℕ → ℤ) : HandlerStep → Handler → Outcome Handler
  | .next, s => s.next c u
  | .post n, s => .ok { s with core := s.core.post n (res (n - b)) }

def HandlerStep.Admissible (u : ℕ) : HandlerStep → Handler → Prop
  | .next, s => (CoreStep.next u).Admissible s.core ∧ s.ret = none
  | .post n, s => n < s.core.submitted ∧ n ∉ s.core.completed

/-- No call is in progress: every request was submitted, completed and removed. -/
structure Core.Quiet (s : Core) : Prop where
  submitted : s.submitted = s.sqes.length
  completed : ∀ n, n ∈ s.completed ↔ n < s.sqes.length
  removed : s.cq.khead = s.cq.posted.length
  pending : s.pendingReq = 0
  idle : ∀ u, s.pc u = .idle
  running : s.running = none

/-- ULT `u` begins the call. -/
def Core.begin_ (s : Core) (c : RwCall) (u : ℕ) : Handler := ⟨s.goto u (.loop c.io 0), none⟩

/-- The run `steps` leads from the start of the call to `t`. -/
def Reaches (c : RwCall) (u : ℕ) (res : ℕ → ℤ) (s : Core) (steps : List HandlerStep) (t : Handler) :
    Prop :=
  Runs (HandlerStep.step c u s.sqes.length res) (HandlerStep.Admissible u) steps (s.begin_ c u) t

/-- Whatever happens the call can return, and it returns what the results say. -/
structure Reported (c : RwCall) (u : ℕ) (res : ℕ → ℤ) (s : Core) : Prop where
  value : ∀ steps t v, Reaches c u res s steps t → t.ret = some v → v = c.io.report res
  returns : ∀ steps t, Reaches c u res s steps t →
    ∃ steps' t', Reaches c u res s (steps ++ steps') t' ∧ t'.ret.isSome

/-! ### Phases of a call -/

/-- Where a call waits for `done_flag`: before a check, at its start, or before the test. -/
inductive Spot where
  | check
  | walk
  | test

/-- Where the call is with its chunk number `k`, and whether the completion it waits for was
posted. -/
inductive Phase where
  | loop (k : ℕ)
  | bottom (k : ℕ)
  | batch (k i : ℕ)
  | await (spot : Spot) (k : ℕ) (posted : Bool)
  | walked (k : ℕ)
  | taken (k : ℕ)
  | returned (k : ℕ)

namespace Phase

def next (io : Io) (res : ℕ → ℤ) : Phase → Phase
  | loop k => if k * io.unit < io.count then bottom k else returned k
  | bottom k => batch k 0
  | batch k i => if ioUringTH2 < i then await .check k false else batch k (i + 1)
  | await .check k p => await .walk k p
  | await .walk k false => await .test k false
  | await .walk k true => walked k
  | await .test k p => await .check k p
  | walked k => if 0 < res k then taken k else await .test k true
  | taken k => loop (k + 1)
  | returned k => returned k

/-- The number of requests that the call has made, that it has submitted, and that are completed. -/
def made : Phase → ℕ
  | loop k | returned k => k
  | bottom k | batch k _ | await _ k _ | walked k | taken k => k + 1

def sent : Phase → ℕ
  | loop k | returned k | bottom k | batch k _ => k
  | await _ k _ | walked k | taken k => k + 1

def completed : Phase → ℕ
  | loop k | returned k | bottom k | batch k _ | await _ k false => k
  | await _ k true | walked k | taken k => k + 1

def pending : Phase → ℕ
  | batch _ _ => 1
  | _ => 0

/-- The completions that were not removed. -/
def left (b : ℕ) (res : ℕ → ℤ) : Phase → List Cqe
  | await _ k true | walked k => [⟨(b + k) % ioUringQD, res k⟩]
  | _ => []

/-- The flag of the chunk. -/
def flag (res : ℕ → ℤ) : Phase → Option (ℕ × Bool)
  | loop _ | returned _ => none
  | bottom k | batch k _ | await _ k _ => some (k, false)
  | walked k => some (k, decide (0 < res k))
  | taken k => some (k, true)

/-- What the call has returned. -/
def ret (io : Io) : Phase → Option ℤ
  | returned _ => some io.count
  | _ => none

def chunk (io : Io) (b k : ℕ) : Chunk := ⟨io, k * io.unit, b + k⟩

/-- The place of the ULT. -/
def pc (io : Io) (b : ℕ) (res : ℕ → ℤ) (s : Core) : Phase → UltPc
  | loop k => .loop io (k * io.unit)
  | bottom k => .bottom (chunk io b k)
  | batch k i => .batch (chunk io b k) s.submitCnt i
  | await .check k _ => .check (chunk io b k)
  | await .walk k _ => .walk (chunk io b k) s.cq.begin_
  | walked k => .walk (chunk io b k) ⟨s.cq.khead + 1, if 0 < res k then 1 else 0⟩
  | await .test k _ | taken k => .test (chunk io b k)
  | returned _ => .idle

end Phase

/-- The core is in the phase. -/
structure Sim (c : RwCall) (u b : ℕ) (res : ℕ → ℤ) (ph : Phase) (s : Handler) : Prop where
  pc : s.core.pc u = ph.pc c.io b res s.core
  scheduled : s.core.Scheduled u
  sqes : s.core.sqes.length = b + ph.made
  slots : ∀ k e, s.core.sqes[b + k]? = some e → e.userData = (b + k) % ioUringQD
  submitted : s.core.submitted = b + ph.sent
  completed : ∀ n, n ∈ s.core.completed ↔ n < b + ph.completed
  pending : s.core.pendingReq = ph.pending
  khead : s.core.cq.khead ≤ s.core.cq.posted.length
  left : s.core.cq.left = ph.left b res
  flag : ∀ k v, ph.flag res = some (k, v) → s.core.cq.doneFlag ((b + k) % ioUringQD) = v
  ret : s.ret = ph.ret c.io

section Steps

variable {c : RwCall} {u b k : ℕ} {res : ℕ → ℤ} {ph : Phase} {s : Handler}

theorem Cq.left_advance (q : Cq) (w : Walk) : (q.advance w).left = q.left.drop w.i := by
  rw [Cq.left, Cq.khead_advance, Cq.left, List.drop_drop]
  rfl

/-- The step of the core decides the step of the handler. -/
theorem handler_next {t : Core} (h : s.core.next u = .ok t) :
    s.next c u = .ok ⟨t, if t.pc u = .idle then some (c.io.count : ℤ) else s.ret⟩ := by
  rw [Handler.next, h, Outcome.map_ok]

/-- A step after which the call goes on. -/
theorem handler_goes {t : Core} {pc : UltPc} (h : s.core.next u = .ok t) (hpc : t.pc u = pc)
    (hne : pc ≠ .idle) : s.next c u = .ok ⟨t, s.ret⟩ := by
  rw [handler_next h, hpc, if_neg hne]

theorem scheduled_goto (s : Core) (u : ℕ) (pc : UltPc) : (s.goto u pc).Scheduled u := Or.inr rfl

theorem scheduled_yield (s : Core) (u : ℕ) (pc : UltPc) : (s.yield_ u pc).Scheduled u := Or.inl rfl

/-- A step that leaves the requests and the completions. -/
theorem Sim.goto (h : Sim c u b res ph s) {t : Core} {ph' : Phase} (hsqes : t.sqes = s.core.sqes)
    (hdone : t.completed = s.core.completed) (hcq : t.cq = s.core.cq) (hsched : t.Scheduled u)
    (hpc : t.pc u = ph'.pc c.io b res t) (hsent : t.submitted = b + ph'.sent)
    (hpending : t.pendingReq = ph'.pending) (hmade : ph'.made = ph.made)
    (hcompleted : ph'.completed = ph.completed) (hleft : ph'.left b res = ph.left b res)
    (hflag : ph'.flag res = ph.flag res)
    (hret : ph'.ret c.io = ph.ret c.io) : Sim c u b res ph' ⟨t, s.ret⟩ where
  pc := hpc
  scheduled := hsched
  sqes := by
    show t.sqes.length = _
    rw [hsqes, hmade, h.sqes]
  slots := by
    show ∀ k e, t.sqes[b + k]? = some e → _
    rw [hsqes]
    exact h.slots
  submitted := hsent
  completed := by
    show ∀ n, n ∈ t.completed ↔ _
    rw [hdone, hcompleted]
    exact h.completed
  pending := hpending
  khead := by
    show t.cq.khead ≤ t.cq.posted.length
    rw [hcq]
    exact h.khead
  left := by
    show t.cq.left = _
    rw [hcq, hleft]
    exact h.left
  flag := by
    show ∀ k v, _ → t.cq.doneFlag _ = v
    rw [hcq, hflag]
    exact h.flag
  ret := h.ret.trans hret.symm

/-- The next slot holds the chunk's request, with its flag cleared. -/
theorem sim_loop (h : Sim c u b res (.loop k) s) (hk : k * c.io.unit < c.io.count) :
    ∃ t, s.next c u = .ok t ∧ Sim c u b res (.bottom k) t := by
  have hsqes : s.core.sqes.length = b + k := h.sqes
  have hsent : s.core.submitted = b + k := h.submitted
  have hfree : s.core.sqes.length - s.core.submitted < ioUringQD := by
    rw [hsqes, hsent, Nat.sub_self]
    decide
  have hnext := next_loop h.pc hk hfree
  refine ⟨_, handler_goes hnext (goto_pc _ _ _) (by simp), ?_⟩
  rw [hsqes]
  exact {
    pc := goto_pc _ _ _
    scheduled := scheduled_goto _ _ _
    sqes := by
      show (s.core.sqes ++ [_]).length = _
      rw [List.length_append, hsqes]
      rfl
    slots := by
      intro j e he
      change (s.core.sqes ++ [_])[b + j]? = some e at he
      by_cases hj : j < k
      · rw [List.getElem?_append_left (by omega)] at he
        exact h.slots j e he
      · rw [List.getElem?_append_right (by omega), hsqes] at he
        obtain ⟨hlt, he⟩ := List.getElem?_eq_some_iff.mp he
        have hjk : j = k := by
          rw [List.length_singleton] at hlt
          omega
        subst hjk
        rw [← he]
        simp [Io.prep]
    submitted := hsent
    completed := h.completed
    pending := h.pending
    khead := h.khead
    left := h.left
    flag := by
      intro j v hv
      obtain ⟨rfl, rfl⟩ : k = j ∧ false = v := by simpa [Phase.flag] using hv
      show Function.update _ _ _ _ = _
      rw [hsqes, Function.update_self]
    ret := h.ret }

/-- After the last chunk the call returns `count`. -/
theorem sim_return (h : Sim c u b res (.loop k) s) (hk : ¬ k * c.io.unit < c.io.count) :
    ∃ t, s.next c u = .ok t ∧ Sim c u b res (.returned k) t := by
  have hnext : s.core.next u = .ok (s.core.yield_ u .idle) := by
    have hpc : s.core.pc u = .loop c.io (k * c.io.unit) := h.pc
    simp only [Core.next, hpc, if_neg hk]
  refine ⟨_, handler_next hnext, ?_⟩
  rw [if_pos (yield_pc _ _ _)]
  exact ⟨yield_pc _ _ _, scheduled_yield _ _ _, h.sqes, h.slots, h.submitted, h.completed, h.pending,
    h.khead, h.left, (fun _ _ h => by cases h), rfl⟩

theorem sim_bottom (h : Sim c u b res (.bottom k) s) :
    ∃ t, s.next c u = .ok t ∧ Sim c u b res (.batch k 0) t := by
  have hpending : s.core.pendingReq = 0 := h.pending
  have hnext := next_bottom h.pc (by rw [hpending]; decide)
  refine ⟨_, handler_goes hnext (goto_pc _ _ _) (by simp), ?_⟩
  exact h.goto rfl rfl rfl (scheduled_goto _ _ _) (goto_pc _ _ _) h.submitted
    (by rw [Core.goto, hpending]; rfl) rfl rfl rfl rfl rfl

/-- The call submits its request itself, since no other ULT does. -/
theorem sim_batch {i : ℕ} (h : Sim c u b res (.batch k i) s) :
    ∃ t, s.next c u = .ok t ∧ Sim c u b res ((Phase.batch k i).next c.io res) t := by
  by_cases hi : ioUringTH2 < i
  · have hnext := next_batch_submit h.pc hi
    refine ⟨_, handler_goes hnext (goto_pc _ _ _) (by simp), ?_⟩
    rw [Phase.next, if_pos hi]
    exact h.goto rfl rfl rfl (scheduled_goto _ _ _) (goto_pc _ _ _) h.sqes rfl rfl rfl rfl rfl rfl
  · have hnext := next_batch_wait h.pc (Nat.le_of_not_lt hi)
    refine ⟨_, handler_goes hnext (yield_pc _ _ _) (by simp), ?_⟩
    rw [Phase.next, if_neg hi]
    exact h.goto rfl rfl rfl (scheduled_yield _ _ _) (yield_pc _ _ _) h.submitted h.pending
      rfl rfl rfl rfl rfl

theorem sim_check {p : Bool} (h : Sim c u b res (.await .check k p) s) :
    ∃ t, s.next c u = .ok t ∧ Sim c u b res (.await .walk k p) t := by
  have hnext := next_check h.pc
  refine ⟨_, handler_goes hnext (goto_pc _ _ _) (by simp), ?_⟩
  exact h.goto rfl rfl rfl (scheduled_goto _ _ _) (goto_pc _ _ _) h.submitted h.pending rfl
    (by cases p <;> rfl) (by cases p <;> rfl) rfl rfl

/-- A flag that is not set sends the call back to the check. -/
theorem sim_test {p : Bool} (h : Sim c u b res (.await .test k p) s) :
    ∃ t, s.next c u = .ok t ∧ Sim c u b res (.await .check k p) t := by
  have hflag : s.core.cq.doneFlag (Phase.chunk c.io b k).sqeId = false := h.flag k false rfl
  have hnext : s.core.next u = .ok (s.core.yield_ u (.check (Phase.chunk c.io b k))) := by
    have hpc : s.core.pc u = .test (Phase.chunk c.io b k) := h.pc
    simp only [Core.next, hpc, hflag, Bool.false_eq_true, if_false]
  refine ⟨_, handler_goes hnext (yield_pc _ _ _) (by simp), ?_⟩
  exact h.goto rfl rfl rfl (scheduled_yield _ _ _) (yield_pc _ _ _) h.submitted h.pending rfl
    (by cases p <;> rfl) (by cases p <;> rfl) rfl rfl

theorem posted_at (q : Cq) (j : ℕ) : q.posted[q.khead + j]? = q.left[j]? := (q.left_getElem? j).symm

/-- A walk that finds nothing ends without a flag. -/
theorem sim_walk_none (h : Sim c u b res (.await .walk k false) s) :
    ∃ t, s.next c u = .ok t ∧ Sim c u b res (.await .test k false) t := by
  have hleft : s.core.cq.left = [] := h.left
  have hnone : s.core.cq.posted[s.core.cq.khead]? = none := by
    have hat := posted_at s.core.cq 0
    rwa [hleft, Nat.add_zero] at hat
  have hnext := next_walk_none h.pc hnone
  refine ⟨_, handler_goes hnext (goto_pc _ _ _) (by simp), ?_⟩
  exact ⟨goto_pc _ _ _, scheduled_goto _ _ _, h.sqes, h.slots, h.submitted, h.completed, h.pending,
    h.khead, h.left, h.flag, h.ret⟩

theorem examine_walk (q : Cq) (w : Walk) (e : Cqe) :
    (q.examine w e).2 = ⟨w.head + 1, w.i + if 0 < e.res then 1 else 0⟩ := by
  rw [Cq.examine]
  split_ifs <;> rfl

theorem examine_doneFlag (q : Cq) (w : Walk) (e : Cqe) : (q.examine w e).1.doneFlag =
    if 0 < e.res then Function.update q.doneFlag e.userData true else q.doneFlag := by
  rw [Cq.examine]
  split_ifs <;> rfl

theorem examine_posted (q : Cq) (w : Walk) (e : Cqe) : (q.examine w e).1.posted = q.posted := by
  rw [Cq.examine]
  split_ifs <;> rfl

theorem examine_left (q : Cq) (w : Walk) (e : Cqe) : (q.examine w e).1.left = q.left := by
  rw [Cq.examine]
  split_ifs <;> rfl

/-- The walk finds the completion of the chunk and keeps its sign. -/
theorem sim_walk_some (h : Sim c u b res (.await .walk k true) s) :
    ∃ t, s.next c u = .ok t ∧ Sim c u b res (.walked k) t := by
  have hleft : s.core.cq.left = [⟨(b + k) % ioUringQD, res k⟩] := h.left
  have hsome : s.core.cq.posted[s.core.cq.begin_.head]? = some ⟨(b + k) % ioUringQD, res k⟩ := by
    have hat := posted_at s.core.cq 0
    rwa [hleft, Nat.add_zero] at hat
  have hpc : s.core.pc u = .walk (Phase.chunk c.io b k) s.core.cq.begin_ := h.pc
  have hnext : s.core.next u = .ok
      ({ s.core with cq := (s.core.cq.examine s.core.cq.begin_ ⟨(b + k) % ioUringQD, res k⟩).1 }.goto u
        (.walk (Phase.chunk c.io b k)
          (s.core.cq.examine s.core.cq.begin_ ⟨(b + k) % ioUringQD, res k⟩).2)) := by
    simp only [Core.next, hpc, Cq.iterate, hsome]
  refine ⟨_, handler_goes hnext (goto_pc _ _ _) (by simp), ?_⟩
  exact {
    pc := by
      rw [goto_pc, examine_walk, Phase.pc]
      simp only [Core.goto, (Cq.khead_examine _ _ _).1]
      simp [Cq.begin_]
    scheduled := scheduled_goto _ _ _
    sqes := h.sqes
    slots := h.slots
    submitted := h.submitted
    completed := h.completed
    pending := h.pending
    khead := by
      show (s.core.cq.examine _ _).1.khead ≤ (s.core.cq.examine _ _).1.posted.length
      rw [(Cq.khead_examine _ _ _).1, examine_posted]
      exact h.khead
    left := (examine_left _ _ _).trans h.left
    flag := by
      intro j v hv
      obtain ⟨rfl, rfl⟩ : k = j ∧ decide (0 < res k) = v := by simpa [Phase.flag] using hv
      show (s.core.cq.examine _ _).1.doneFlag _ = _
      rw [examine_doneFlag]
      split_ifs with hres
      · simp [hres]
      · simpa [hres] using h.flag k false rfl
    ret := h.ret }

/-- The check ends. It removes the completion of the chunk if it has set the flag. -/
theorem sim_walked (h : Sim c u b res (.walked k) s) :
    ∃ t, s.next c u = .ok t ∧ Sim c u b res ((Phase.walked k).next c.io res) t := by
  have hleft : s.core.cq.left = [⟨(b + k) % ioUringQD, res k⟩] := h.left
  have hnone : s.core.cq.posted[s.core.cq.khead + 1]? = none := by
    rw [posted_at, hleft]
    rfl
  have hflag := h.flag k _ rfl
  have hnext := next_walk_none h.pc hnone
  refine ⟨_, handler_goes hnext (goto_pc _ _ _) (by simp), ?_⟩
  have hlen : s.core.cq.khead + 1 = s.core.cq.posted.length := by
    have hlength := congrArg List.length hleft
    rw [Cq.length_left, List.length_singleton] at hlength
    omega
  by_cases hres : 0 < res k
  · rw [Phase.next, if_pos hres, if_pos hres]
    refine ⟨goto_pc _ _ _, scheduled_goto _ _ _, h.sqes, h.slots, h.submitted, h.completed, h.pending,
      ?_, ?_, ?_, h.ret⟩
    · exact Nat.le_of_eq hlen
    · exact (Cq.left_advance _ _).trans (by rw [hleft]; rfl)
    · intro j v hv
      obtain ⟨rfl, rfl⟩ : k = j ∧ true = v := by simpa [Phase.flag] using hv
      exact hflag.trans (decide_eq_true hres)
  · rw [Phase.next, if_neg hres, if_neg hres]
    refine ⟨goto_pc _ _ _, scheduled_goto _ _ _, h.sqes, h.slots, h.submitted, h.completed, h.pending,
      h.khead, h.left, ?_, h.ret⟩
    intro j v hv
    obtain ⟨rfl, rfl⟩ : k = j ∧ false = v := by simpa [Phase.flag] using hv
    exact hflag.trans (decide_eq_false hres)

theorem sim_taken (h : Sim c u b res (.taken k) s) :
    ∃ t, s.next c u = .ok t ∧ Sim c u b res (.loop (k + 1)) t := by
  have hnext := next_test h.pc (h.flag k true rfl)
  refine ⟨_, handler_goes hnext (goto_pc _ _ _) (by simp), ?_⟩
  refine ⟨?_, scheduled_goto _ _ _, h.sqes, h.slots, h.submitted, h.completed, h.pending, h.khead, h.left,
    (fun _ _ h => by cases h), h.ret⟩
  rw [goto_pc]
  show UltPc.loop c.io (k * c.io.unit + c.io.unit) = .loop c.io ((k + 1) * c.io.unit)
  rw [Nat.succ_mul]

/-- Each step of the call is one between phases. -/
theorem sim_next (h : Sim c u b res ph s) (hret : s.ret = none) :
    ∃ t, s.next c u = .ok t ∧ Sim c u b res (ph.next c.io res) t := by
  cases ph with
  | loop k =>
    rw [Phase.next]
    split_ifs with hk
    · exact sim_loop h hk
    · exact sim_return h hk
  | bottom k => exact sim_bottom h
  | batch k i => exact sim_batch h
  | await spot k p =>
    cases spot with
    | check => exact sim_check h
    | walk =>
      cases p with
      | false => exact sim_walk_none h
      | true => exact sim_walk_some h
    | test => exact sim_test h
  | walked k => exact sim_walked h
  | taken k => exact sim_taken h
  | returned k => exact absurd (h.ret.symm.trans hret) (fun h => by cases h)

/-- The kernel can complete no request but the one the call waits for, and that one once. -/
theorem sim_post (h : Sim c u b res ph s) {n : ℕ} (hn : n < s.core.submitted)
    (hnew : n ∉ s.core.completed) : ∃ spot k, ph = .await spot k false ∧
    Sim c u b res (.await spot k true) { s with core := s.core.post n (res (n - b)) } := by
  rw [h.completed, Nat.not_lt] at hnew
  rw [h.submitted] at hn
  have hlt : ph.completed < ph.sent := by omega
  cases ph with
  | loop | returned | bottom | batch | walked | taken => exact absurd hlt (lt_irrefl _)
  | await spot k p =>
    cases p with
    | true => exact absurd hlt (lt_irrefl _)
    | false =>
      have hk : n = b + k := Nat.le_antisymm (Nat.lt_succ_iff.mp hn) hnew
      subst hk
      refine ⟨spot, k, rfl, ?_⟩
      obtain ⟨e, he⟩ : ∃ e, s.core.sqes[b + k]? = some e :=
        ⟨_, List.getElem?_eq_getElem (by rw [h.sqes]; exact Nat.lt_succ_self _)⟩
      have hcore : s.core.post (b + k) (res (b + k - b)) =
          { s.core with
            cq := s.core.cq.post ⟨(b + k) % ioUringQD, res k⟩
            completed := s.core.completed ++ [b + k] } := by
        rw [post_eq he, h.slots k e he, Nat.add_sub_cancel_left]
      rw [hcore]
      exact {
        pc := by
          have hpc := h.pc
          cases spot <;> exact hpc
        scheduled := h.scheduled
        sqes := h.sqes
        slots := h.slots
        submitted := h.submitted
        completed := by
          intro n
          show n ∈ s.core.completed ++ [b + k] ↔ n < b + (k + 1)
          rw [List.mem_append, List.mem_singleton, h.completed]
          show n < b + k ∨ n = b + k ↔ _
          omega
        pending := h.pending
        khead := by
          show s.core.cq.khead ≤ (s.core.cq.posted ++ [_]).length
          rw [List.length_append]
          exact Nat.le_add_right_of_le h.khead
        left := (Cq.left_post _ h.khead).trans (by rw [h.left]; rfl)
        flag := h.flag
        ret := h.ret }

end Steps

/-! ### Positive results -/

/-- Every chunk has a result that sets its flag. -/
def AllPositive (io : Io) (res : ℕ → ℤ) : Prop := ∀ k, k * io.unit < io.count → 0 < res k

/-- The chunks that the call has left behind have positive results, and it returns after the last. -/
def Phase.Sound (io : Io) (res : ℕ → ℤ) : Phase → Prop
  | loop k => ∀ j < k, 0 < res j
  | bottom k | batch k _ | await _ k _ | walked k => k * io.unit < io.count ∧ ∀ j < k, 0 < res j
  | taken k => ∀ j < k + 1, 0 < res j
  | returned k => io.count ≤ k * io.unit ∧ ∀ j < k, 0 < res j

section Progress

variable {c : RwCall} {io : Io} {u b k : ℕ} {res : ℕ → ℤ} {ph : Phase} {s : Handler}

theorem sound_next (h : ph.Sound io res) : (ph.next io res).Sound io res := by
  cases ph with
  | loop k =>
    rw [Phase.next]
    split_ifs with hk
    · exact ⟨hk, h⟩
    · exact ⟨Nat.le_of_not_lt hk, h⟩
  | bottom k => exact h
  | batch k i =>
    rw [Phase.next]
    split_ifs <;> exact h
  | await spot k p =>
    cases spot with
    | check => exact h
    | walk => cases p <;> exact h
    | test => exact h
  | walked k =>
    rw [Phase.next]
    split_ifs with hres
    · intro j hj
      rcases Nat.lt_succ_iff_lt_or_eq.mp hj with hj | rfl
      · exact h.2 j hj
      · exact hres
    · exact h
  | taken k => exact h
  | returned k => exact h

theorem allPositive_of_returned (h : (Phase.returned k).Sound io res) : AllPositive io res := by
  intro j hj
  exact h.2 j (Nat.lt_of_mul_lt_mul_right (Nat.lt_of_lt_of_le hj h.1))

/-- The call is in a sound phase in every state that a run reaches. -/
theorem sim_of_reaches {s : Core} {steps : List HandlerStep} {t : Handler} (hs : s.Quiet)
    (h : Reaches c u res s steps t) :
    ∃ ph, Sim c u s.sqes.length res ph t ∧ ph.Sound c.io res := by
  refine run_inv_of_meets (I := fun t => ∃ ph, Sim c u s.sqes.length res ph t ∧ ph.Sound c.io res)
    ?_ ?_ h.meets h.run
  · rintro o t t' ⟨ph, hsim, hsound⟩ hA ht
    cases o with
    | next =>
      obtain ⟨t₁, ht₁, hsim'⟩ := sim_next hsim hA.2
      obtain rfl : t₁ = t' := Outcome.ok.inj (ht₁.symm.trans ht)
      exact ⟨_, hsim', sound_next hsound⟩
    | post n =>
      obtain ⟨spot, k, rfl, hsim'⟩ := sim_post hsim hA.1 hA.2
      obtain rfl := Outcome.ok.inj ht
      exact ⟨_, hsim', hsound⟩
  · refine ⟨.loop 0, ?_, fun j hj => absurd hj (Nat.not_lt_zero j)⟩
    have hleft : s.cq.left = [] := List.drop_eq_nil_of_le (Nat.le_of_eq hs.removed.symm)
    exact {
      pc := by
        show (s.goto u _).pc u = .loop c.io (0 * c.io.unit)
        rw [goto_pc, Nat.zero_mul]
      scheduled := scheduled_goto _ _ _
      sqes := rfl
      slots := fun j e he => by
        have hlt := (List.getElem?_eq_some_iff.mp he).1
        exact absurd hlt (Nat.not_lt.mpr (Nat.le_add_right _ _))
      submitted := hs.submitted
      completed := hs.completed
      pending := hs.pending
      khead := Nat.le_of_eq hs.removed
      left := hleft
      flag := fun _ _ h => by cases h
      ret := rfl }

/-- Some schedule of the call and the kernel leads to the return. -/
inductive Phase.Comes (io : Io) (res : ℕ → ℤ) : Phase → Prop
  | returned (k : ℕ) : Comes io res (.returned k)
  | next {ph : Phase} (hret : ph.ret io = none) (h : Comes io res (ph.next io res)) : Comes io res ph
  | post {spot : Spot} {k : ℕ} (h : Comes io res (.await spot k true)) :
    Comes io res (.await spot k false)

theorem comes_await (hres : 0 < res k) (h : Phase.Comes io res (.loop (k + 1))) (spot : Spot)
    (p : Bool) : Phase.Comes io res (.await spot k p) := by
  have hwalked : Phase.Comes io res (.walked k) := by
    apply Phase.Comes.next rfl
    rw [Phase.next, if_pos hres]
    exact .next rfl h
  have hwalk : Phase.Comes io res (.await .walk k true) := .next rfl hwalked
  have hcheck : Phase.Comes io res (.await .check k true) := .next rfl hwalk
  have htest : Phase.Comes io res (.await .test k true) := .next rfl hcheck
  have hposted : Phase.Comes io res (.await spot k true) := by
    cases spot with
    | check => exact hcheck
    | walk => exact hwalk
    | test => exact htest
  cases p with
  | false => exact .post hposted
  | true => exact hposted

/-- The call yields at most `ioUringTH2 + 1` times before it submits. -/
theorem comes_batch (h : Phase.Comes io res (.await .check k false)) (i : ℕ) :
    Phase.Comes io res (.batch k i) := by
  induction hn : ioUringTH2 + 1 - i generalizing i with
  | zero =>
    apply Phase.Comes.next rfl
    rwa [Phase.next, if_pos (by omega)]
  | succ n ih =>
    apply Phase.Comes.next rfl
    rw [Phase.next, if_neg (by omega)]
    exact ih (i + 1) (by omega)

theorem comes_loop (hpos : AllPositive io res) (k : ℕ) : Phase.Comes io res (.loop k) := by
  induction hn : io.count - k * io.unit using Nat.strong_induction_on generalizing k with
  | _ n ih =>
    apply Phase.Comes.next rfl
    rw [Phase.next]
    split_ifs with hk
    · have hnext : Phase.Comes io res (.loop (k + 1)) :=
        ih _ (hn ▸ io.remaining_lt hk) (k + 1) rfl
      exact .next rfl (comes_batch (comes_await (hpos k hk) hnext _ _) 0)
    · exact .returned k

/-- With positive results the call returns from every phase. -/
theorem comes_of_positive (hpos : AllPositive io res) (h : ph.Sound io res) : ph.Comes io res := by
  cases ph with
  | loop k => exact comes_loop hpos k
  | bottom k => exact .next rfl (comes_batch (comes_await (hpos k h.1) (comes_loop hpos _) _ _) 0)
  | batch k i => exact comes_batch (comes_await (hpos k h.1) (comes_loop hpos _) _ _) i
  | await spot k p => exact comes_await (hpos k h.1) (comes_loop hpos _) spot p
  | walked k =>
    apply Phase.Comes.next rfl
    rw [Phase.next, if_pos (hpos k h.1)]
    exact .next rfl (comes_loop hpos _)
  | taken k => exact .next rfl (comes_loop hpos _)
  | returned k => exact .returned k

/-- The core follows the schedule. -/
theorem runs_of_comes (h : ph.Comes c.io res) : ∀ {s : Handler}, Sim c u b res ph s →
    ∃ steps t, Runs (HandlerStep.step c u b res) (HandlerStep.Admissible u) steps s t ∧
      t.ret.isSome := by
  induction h with
  | returned k =>
    intro s hs
    refine ⟨[], s, .nil _ _, ?_⟩
    rw [hs.ret]
    rfl
  | next hret _ ih =>
    intro s hs
    have hnone : s.ret = none := hs.ret.trans hret
    obtain ⟨t, ht, hsim⟩ := sim_next hs hnone
    obtain ⟨steps, t', hr, hsome⟩ := ih hsim
    exact ⟨.next :: steps, t', .cons ⟨hs.scheduled, hnone⟩ ht hr, hsome⟩
  | @post spot k _ ih =>
    intro s hs
    have hsubmitted : s.core.submitted = b + (k + 1) := hs.submitted
    have hnew : b + k ∉ s.core.completed := by
      rw [hs.completed]
      exact lt_irrefl (b + k)
    have hlt : b + k < s.core.submitted := by omega
    obtain ⟨spot', k', heq, hsim⟩ := sim_post hs hlt hnew
    cases heq
    obtain ⟨steps, t', hr, hsome⟩ := ih hsim
    exact ⟨.post (b + k) :: steps, t', .cons ⟨hlt, hnew⟩ rfl hr, hsome⟩

end Progress

/-! ### The returned value -/

section Report

variable {io : Io} {k : ℕ}

theorem sz_pos (h : k * io.unit < io.count) : 0 < io.sz (k * io.unit) := by
  have := io.unit_pos
  rw [sz_eq_min]
  omega

/-- What is left of the range is the next chunk and the rest. -/
theorem remaining_eq (h : k * io.unit < io.count) :
    io.count - k * io.unit = io.sz (k * io.unit) + (io.count - (k + 1) * io.unit) := by
  rw [sz_eq_min, Nat.succ_mul]
  omega

/-- The chunks from number `k` on transfer all that is left if and only if each is full. -/
theorem contiguous_eq_iff (r : Results io) (k : ℕ) :
    io.contiguous r.res k ≤ (io.count - k * io.unit : ℕ) ∧
    (io.contiguous r.res k = (io.count - k * io.unit : ℕ) ↔
      ∀ j, k ≤ j → j * io.unit < io.count → r.res j = io.sz (j * io.unit)) := by
  induction hn : io.count - k * io.unit using Nat.strong_induction_on generalizing k with
  | _ n ih =>
    by_cases hk : k * io.unit < io.count
    · obtain ⟨hle, hiff⟩ := ih _ (hn ▸ io.remaining_lt hk) (k + 1) rfl
      have hrem := remaining_eq hk
      have hsz := sz_pos hk
      have hres := r.le k hk
      rw [Io.contiguous, if_pos hk]
      split_ifs with hshort
      · refine ⟨by omega, ?_⟩
        constructor
        · intro heq
          omega
        · intro hfull
          exact absurd (hfull k le_rfl hk) (Int.ne_of_lt hshort)
      · have hfullk : r.res k = io.sz (k * io.unit) := by omega
        refine ⟨by omega, ?_⟩
        constructor
        · intro heq j hj hlt
          rcases Nat.eq_or_lt_of_le hj with rfl | hj
          · exact hfullk
          · exact hiff.mp (by omega) j hj hlt
        · intro hfull
          have := hiff.mpr fun j hj => hfull j (by omega)
          omega
    · rw [Io.contiguous, if_neg hk]
      have hzero : n = 0 := by omega
      subst hzero
      refine ⟨Int.le_refl 0, iff_of_true rfl fun j hj hlt => ?_⟩
      have := Nat.mul_le_mul_right io.unit hj
      omega

/-- `count` is the right value if and only if every chunk is full. -/
theorem report_eq_count_iff (r : Results io) : io.report r.res = io.count ↔
    ∀ k, k * io.unit < io.count → r.res k = io.sz (k * io.unit) := by
  have hall := (contiguous_eq_iff r 0).2
  rw [Nat.zero_mul, Nat.sub_zero] at hall
  rw [Io.report]
  split_ifs with herr
  · constructor
    · intro h
      omega
    · intro h
      have := h 0 (by rw [Nat.zero_mul]; exact herr.1)
      omega
  · simpa using hall

end Report

/-- A call on a quiet core returns what the kernel's results say if and only if every chunk is
completed in full. -/
theorem reported_iff_full (c : RwCall) (u : ℕ) (r : Results c.io) {s : Core} (hs : s.Quiet) :
    Reported c u r.res s ↔
      ∀ k, k * c.io.unit < c.io.count → r.res k = c.io.sz (k * c.io.unit) := by
  constructor
  · intro h
    obtain ⟨steps, t, hreach, hsome⟩ := h.returns [] _ (.nil _ _)
    obtain ⟨ph, hsim, -⟩ := sim_of_reaches hs hreach
    obtain ⟨v, hv⟩ := Option.isSome_iff_exists.mp hsome
    have hret := hsim.ret
    rw [hv] at hret
    cases ph with
    | returned k =>
      have hcount : v = c.io.count := Option.some.inj hret
      exact (report_eq_count_iff r).mp (hcount ▸ h.value steps t v hreach hv).symm
    | _ => cases hret
  · intro hfull
    have hreport := (report_eq_count_iff r).mpr hfull
    have hpos : AllPositive c.io r.res := fun k hk => by
      rw [hfull k hk]
      exact Int.natCast_pos.mpr (sz_pos hk)
    constructor
    · intro steps t v hreach hv
      obtain ⟨ph, hsim, -⟩ := sim_of_reaches hs hreach
      have hret := hsim.ret
      rw [hv] at hret
      cases ph with
      | returned k => rw [hreport, Option.some.inj hret]
      | _ => cases hret
    · intro steps t hreach
      obtain ⟨ph, hsim, hsound⟩ := sim_of_reaches hs hreach
      obtain ⟨steps', t', hr, hsome⟩ := runs_of_comes (comes_of_positive hpos hsound) hsim
      exact ⟨steps', t', hreach.append hr, hsome⟩

theorem quiet_init (doneFlag : ℕ → Bool) : (Core.init doneFlag).Quiet where
  submitted := rfl
  completed := fun _ => iff_of_false List.not_mem_nil (Nat.not_lt_zero _)
  removed := rfl
  pending := rfl
  idle := fun _ => rfl
  running := rfl

/-- A read of one sector. -/
def sectorRead : RwCall := .read 3 0 512

/-- The kernel answers every chunk of `sectorRead` with `n` bytes. -/
def sectorResults (n : ℕ) (h : n ≤ 512) : Results sectorRead.io where
  res := fun _ => n
  le := by
    intro k hk
    have hzero : k = 0 := by
      by_contra hne
      have hone : 1 * sectorRead.io.unit ≤ k * sectorRead.io.unit :=
        Nat.mul_le_mul_right _ (Nat.pos_of_ne_zero hne)
      exact absurd (Nat.lt_of_le_of_lt hone hk) (by decide)
    subst hzero
    exact Int.ofNat_le.mpr h

/-- The theorem at a read of a whole sector. -/
theorem sector_reported :
    Reported sectorRead 0 (sectorResults 512 le_rfl).res (.init fun _ => false) := by
  refine (reported_iff_full _ _ _ (quiet_init _)).mpr fun k hk => ?_
  exact Int.le_antisymm ((sectorResults 512 le_rfl).le k hk) (by
    rw [sz_eq_min]
    exact Int.ofNat_le.mpr (Nat.le_trans (Nat.min_le_right _ _) (Nat.sub_le _ _)))

/-- With 100 bytes before the end of the file the call returns 512, and at the end it does not
return. -/
theorem short_read_not_reported :
    ¬ Reported sectorRead 0 (sectorResults 100 (by decide)).res (.init fun _ => false) ∧
    (∃ steps t, Reaches sectorRead 0 (sectorResults 100 (by decide)).res (.init fun _ => false) steps t ∧
      t.ret = some 512) ∧
    sectorRead.io.report (sectorResults 100 (by decide)).res = 100 ∧
    ∀ steps t, Reaches sectorRead 0 (sectorResults 0 (by decide)).res (.init fun _ => false) steps t →
      t.ret = none := by
  refine ⟨fun h => ?_, ?_, ?_, ?_⟩
  · have hfull := (reported_iff_full _ _ _ (quiet_init _)).mp h 0 (by decide)
    exact absurd hfull (by decide)
  · obtain ⟨ph, hsim, hsound⟩ := sim_of_reaches (quiet_init fun _ => false)
      (Runs.nil (HandlerStep.Admissible 0) _ :
        Reaches sectorRead 0 (sectorResults 100 (by decide)).res _ [] _)
    obtain ⟨steps, t, hr, hsome⟩ := runs_of_comes (comes_of_positive (fun _ _ => Int.natCast_pos.mpr (by decide)) hsound) hsim
    obtain ⟨ph', hsim', -⟩ := sim_of_reaches (quiet_init fun _ => false) hr
    refine ⟨steps, t, hr, ?_⟩
    have hret := hsim'.ret
    rw [hret] at hsome ⊢
    cases ph' with
    | returned k => rfl
    | _ => cases hsome
  · decide +kernel
  · intro steps t hreach
    obtain ⟨ph, hsim, hsound⟩ := sim_of_reaches (quiet_init _) hreach
    rw [hsim.ret]
    cases ph with
    | returned k => exact absurd (allPositive_of_returned hsound 0 (by decide)) (by decide)
    | _ => rfl

end Pthabt.IoUring
