import Pthabt.IoUring.Core

/-! The first loop of `__io_uring_bottom`. A request that is not submitted yet keeps the counter of
submissions where its ULT has read it, so a ULT that sees another value, or submits itself, has
its own request submitted, even when the counter wraps. -/

namespace Pthabt.IoUring

open Run

/-- The request that a ULT waits for in the last loop. -/
def UltPc.waitsFor : UltPc → Option Chunk
  | .check c | .walk c _ | .test c => some c
  | _ => none

/-- At scheduling points `pending_req` counts the requests that are not submitted and is at most
`IO_URING_TH1`; the ULTs in the last loop wait for submitted requests; and the ring never
holds more than `IO_URING_TH1 + 1` that are not submitted. -/
structure Batched (s : Core) : Prop where
  pending : s.running = none → s.submitted + s.pendingReq = s.sqes.length ∧ s.pendingReq ≤ ioUringTH1
  waiting : ∀ u c, (s.pc u).waitsFor = some c → c.n < s.submitted
  held : s.sqes.length - s.submitted ≤ ioUringTH1 + 1

/-! ### Invariant -/

/-- The request of a ULT at the start of `__io_uring_bottom` is not counted yet. -/
def UltPc.uncounted : UltPc → ℕ
  | .bottom _ => 1
  | _ => 0

/-- What the place of a ULT says. -/
def Place (s : Core) (u : ℕ) : UltPc → Prop
  | .bottom c => s.running = some u ∧ c.n < s.sqes.length
  | .batch c subCnt _ => c.n < s.sqes.length ∧ (c.n < s.submitted ∨ subCnt = s.submitCnt)
  | .check c | .walk c _ | .test c => c.n < s.submitted
  | _ => True

/-- Invariant of the batching. -/
structure BatchInv (s : Core) : Prop where
  none_ : s.running = none → s.submitted + s.pendingReq = s.sqes.length
  some_ : ∀ u, s.running = some u →
    s.submitted + s.pendingReq + (s.pc u).uncounted = s.sqes.length
  le : s.pendingReq ≤ ioUringTH1
  place : ∀ u, Place s u (s.pc u)

theorem Place.of_waitsFor {s : Core} {u : ℕ} {pc : UltPc} {c : Chunk} (h : Place s u pc)
    (hc : pc.waitsFor = some c) : c.n < s.submitted := by
  cases pc <;> simp only [UltPc.waitsFor, Option.some.injEq, reduceCtorEq] at hc <;> exact hc ▸ h

theorem UltPc.uncounted_le (pc : UltPc) : pc.uncounted ≤ 1 := by
  cases pc with
  | bottom c => exact Nat.le_refl 1
  | _ => exact Nat.zero_le 1

namespace BatchInv

variable {s : Core} {u : ℕ}

theorem submitted_le (h : BatchInv s) : s.submitted ≤ s.sqes.length := by
  cases hr : s.running with
  | none => have := h.none_ hr; omega
  | some u => have := h.some_ u hr; omega

theorem held (h : BatchInv s) : s.sqes.length - s.submitted ≤ ioUringTH1 + 1 := by
  have hle := h.le
  cases hr : s.running with
  | none => have := h.none_ hr; omega
  | some u =>
    have := h.some_ u hr
    have := (s.pc u).uncounted_le
    omega

theorem batched (h : BatchInv s) : Batched s where
  pending hr := ⟨h.none_ hr, h.le⟩
  waiting u _ hc := (h.place u).of_waitsFor hc
  held := h.held

/-- Only the ULT that runs can be at the start of `__io_uring_bottom`. -/
theorem counted (h : BatchInv s) (hs : s.Scheduled u) :
    s.submitted + s.pendingReq + (s.pc u).uncounted = s.sqes.length := by
  rcases hs with hr | hr
  · have hplace := h.place u
    cases hpc : s.pc u with
    | bottom c =>
      rw [hpc] at hplace
      exact absurd (hr.symm.trans hplace.1) (Option.some_ne_none u).symm
    | _ => exact h.none_ hr
  · exact h.some_ u hr

/-- The place of another ULT, when the counters move on. -/
theorem other (h : BatchInv s) (hs : s.Scheduled u) {s' : Core}
    (hlength : s.sqes.length ≤ s'.sqes.length)
    (hsubmit : s'.submitted = s.submitted ∧ s'.submitCnt = s.submitCnt ∨
      s.sqes.length ≤ s'.submitted) {v : ℕ} (hv : v ≠ u) : Place s' v (s.pc v) := by
  have hplace := h.place v
  have hle := h.submitted_le
  cases hpc : s.pc v with
  | bottom c =>
    rw [hpc] at hplace
    rcases hs with hr | hr
    · exact absurd (hr.symm.trans hplace.1) (Option.some_ne_none v).symm
    · exact absurd (Option.some.inj (hplace.1.symm.trans hr)) hv
  | batch c subCnt i =>
    rw [hpc] at hplace
    refine ⟨Nat.lt_of_lt_of_le hplace.1 hlength, ?_⟩
    rcases hsubmit with ⟨h1, h2⟩ | hall
    · rw [h1, h2]
      exact hplace.2
    · exact .inl (Nat.lt_of_lt_of_le hplace.1 hall)
  | idle => trivial
  | loop io off => trivial
  | _ =>
    rw [hpc] at hplace
    change _ < s'.submitted
    have hplace : _ < s.submitted := hplace
    rcases hsubmit with ⟨h1, -⟩ | hall <;> omega

end BatchInv

/-! ### Steps -/

section Steps

variable {s t : Core} {u : ℕ} {pc : UltPc}

/-- ULT `u` goes on at `pc`. -/
theorem inv_goto (h : BatchInv s) (hs : s.Scheduled u) (hpc : t.pc = s.pc)
    (hlength : s.sqes.length ≤ t.sqes.length)
    (hsubmit : t.submitted = s.submitted ∧ t.submitCnt = s.submitCnt ∨ s.sqes.length ≤ t.submitted)
    (hcount : t.submitted + t.pendingReq + pc.uncounted = t.sqes.length)
    (hle : t.pendingReq ≤ ioUringTH1) (hplace : Place (t.goto u pc) u pc) :
    BatchInv (t.goto u pc) where
  none_ hr := absurd hr (Option.some_ne_none u)
  some_ v hr := by
    obtain rfl : u = v := Option.some.inj hr
    change t.submitted + t.pendingReq + (Function.update t.pc u pc u).uncounted = t.sqes.length
    rwa [Function.update_self]
  le := hle
  place := by
    change ∀ v, Place (t.goto u pc) v (Function.update t.pc u pc v)
    refine Core.forall_update (fun v hv => ?_) hplace
    rw [hpc]
    apply h.other hs _ _ hv
    · exact hlength
    · exact hsubmit

/-- ULT `u` yields at `pc`. -/
theorem inv_yield (h : BatchInv s) (hs : s.Scheduled u) (h0 : (s.pc u).uncounted = 0)
    (hplace : Place (s.yield_ u pc) u pc) : BatchInv (s.yield_ u pc) where
  none_ _ := by
    have := h.counted hs
    rwa [h0] at this
  some_ v hr := absurd hr.symm (Option.some_ne_none v)
  le := h.le
  place := by
    change ∀ v, Place (s.yield_ u pc) v (Function.update s.pc u pc v)
    refine Core.forall_update (fun v hv => ?_) hplace
    apply h.other hs _ _ hv
    · exact Nat.le_refl _
    · exact .inl ⟨rfl, rfl⟩

/-- A step that leaves the counters alone. -/
theorem inv_stay (h : BatchInv s) (hs : s.Scheduled u) (h0 : (s.pc u).uncounted = 0)
    (hpc : t.pc = s.pc) (hsqes : t.sqes = s.sqes) (hsubmitted : t.submitted = s.submitted)
    (hpending : t.pendingReq = s.pendingReq) (hcnt : t.submitCnt = s.submitCnt)
    (h0' : pc.uncounted = 0) (hplace : Place (t.goto u pc) u pc) : BatchInv (t.goto u pc) := by
  have hcount := h.counted hs
  refine inv_goto h hs hpc ?_ (.inl ⟨hsubmitted, hcnt⟩) ?_ ?_ hplace
  · exact Nat.le_of_eq (congrArg List.length hsqes.symm)
  · rw [hsqes, hsubmitted, hpending, h0', ← hcount, h0]
  · rw [hpending]
    exact h.le

/-- A submission takes everything that was prepared. -/
theorem inv_submit (h : BatchInv s) (hs : s.Scheduled u) {c : Chunk} (hc : c.n < s.sqes.length) :
    BatchInv (s.submit.goto u (.check c)) :=
  inv_goto h hs rfl (Nat.le_refl _) (.inr (Nat.le_refl _)) rfl (Nat.zero_le _) hc

end Steps

theorem batchInv_next {s : Core} {u : ℕ} (h : BatchInv s) (hs : s.Scheduled u) :
    (s.next u).Safe BatchInv := by
  have hcount := h.counted hs
  have hplace := h.place u
  unfold Core.next
  cases hpc : s.pc u with
  | idle => exact h
  | loop io off =>
    have h0 : (s.pc u).uncounted = 0 := by rw [hpc]; rfl
    dsimp only
    split_ifs with hoff hfree
    · rw [h0] at hcount
      refine inv_goto h hs rfl ?_ (.inl ⟨rfl, rfl⟩) ?_ h.le ⟨rfl, ?_⟩
      · exact (List.prefix_append ..).length_le
      · change s.submitted + s.pendingReq + 1 = (s.sqes ++ [_]).length
        rw [List.length_append, List.length_singleton]
        omega
      · change s.sqes.length < (s.sqes ++ [_]).length
        rw [List.length_append]
        exact Nat.lt_succ_self _
    · -- the ring has more slots than requests that are not submitted
      have := h.held
      simp only [ioUringTH1, ioUringQD] at this hfree
      omega
    · exact inv_yield h hs h0 trivial
  | bottom c =>
    rw [hpc] at hplace hcount
    dsimp only
    split_ifs with hth
    · exact inv_submit h hs hplace.2
    · refine inv_goto h hs rfl (Nat.le_refl _) (.inl ⟨rfl, rfl⟩) ?_ ?_ ⟨hplace.2, .inr rfl⟩
      · change s.submitted + (s.pendingReq + 1) + 0 = s.sqes.length
        have hcount : s.submitted + s.pendingReq + 1 = s.sqes.length := hcount
        omega
      · exact Nat.lt_of_not_le hth
  | batch c subCnt i =>
    have h0 : (s.pc u).uncounted = 0 := by rw [hpc]; rfl
    rw [hpc] at hplace
    dsimp only
    split_ifs with hcnt hth
    · -- another ULT has submitted, and with it this request
      refine inv_stay h hs h0 rfl rfl rfl rfl rfl rfl ?_
      exact hplace.2.resolve_right hcnt
    · exact inv_submit h hs hplace.1
    · exact inv_yield h hs h0 hplace
  | check c =>
    have h0 : (s.pc u).uncounted = 0 := by rw [hpc]; rfl
    rw [hpc] at hplace
    exact inv_stay h hs h0 rfl rfl rfl rfl rfl rfl hplace
  | walk c w =>
    have h0 : (s.pc u).uncounted = 0 := by rw [hpc]; rfl
    rw [hpc] at hplace
    refine inv_stay h hs h0 rfl rfl rfl rfl rfl ?_ ?_
    · cases (s.cq.iterate w).2 <;> rfl
    · cases (s.cq.iterate w).2 <;> exact hplace
  | test c =>
    have h0 : (s.pc u).uncounted = 0 := by rw [hpc]; rfl
    rw [hpc] at hplace
    dsimp only
    split_ifs with hflag
    · exact inv_stay h hs h0 rfl rfl rfl rfl rfl rfl trivial
    · exact inv_yield h hs h0 hplace

theorem batchInv_step (o : CoreStep) (s : Core) (h : BatchInv s) (hA : o.Admissible s) :
    (o.step s).Safe BatchInv := by
  cases o with
  | call u io =>
    have h0 : (s.pc u).uncounted = 0 := by rw [hA.2]; rfl
    exact inv_stay h hA.1 h0 rfl rfl rfl rfl rfl rfl trivial
  | next u => exact batchInv_next h hA
  | post n res =>
    change BatchInv (s.post n res)
    unfold Core.post
    cases s.sqes[n]? with
    | some e => exact ⟨h.none_, h.some_, h.le, h.place⟩
    | none => exact h

theorem batchInv_init (doneFlag : ℕ → Bool) : BatchInv (.init doneFlag) where
  none_ _ := rfl
  some_ u hr := absurd hr.symm (Option.some_ne_none u)
  le := Nat.zero_le _
  place _ := trivial

/-- In every run of the ULTs of a core the batching keeps count, and no ULT polls for a
request that is not submitted. -/
theorem batched_of_runs (doneFlag : ℕ → Bool) (steps : List CoreStep)
    (hA : Meets CoreStep.step CoreStep.Admissible steps (.init doneFlag)) :
    Always CoreStep.step Batched steps (.init doneFlag) :=
  always_of_meets (fun _ h => h.batched) batchInv_step (batchInv_init doneFlag) hA

/-- A read of two chunks, and a write that is released by the submission of the read. -/
theorem batched_two :
    Always CoreStep.step Batched
      [.call 0 ⟨false, 3, 0, 4096 * 256 + 512, 0⟩, .next 0, .next 0, .next 0, .call 1 ⟨true, 4, 0, 512, 0⟩,
        .next 1, .next 1, .next 1, .next 0, .next 0, .next 0, .post 0 512, .next 0, .next 0, .next 0, .next 0,
        .next 0, .next 0, .next 1]
      (.init fun _ => false) := by
  exact batched_of_runs _ _ (by decide +kernel)

end Pthabt.IoUring
