import Pthabt.Hook.ReadAfterWrite

/-! What `write_impl` waits for. Its inner loop leaves by `break` before `rq_k++`, and the last
request of a call is always one that it leaves by, so that request is not among those that the
call waits for. A call is followed by the numbers of its requests, and the steps of the system
follow such a call whatever the other ULTs and the drives do. -/

namespace Pthabt.Hook

open Lib Run Myfs Nvme

/-- A call of `write_impl`: where it is, which request `rid[k]` is of, how many requests
`nvme_write_req` has handed out, and for which ones `nvme_check` has returned 1. -/
structure WriteCall where
  pc : LoopPc
  rid : ℕ → ℕ
  issued : ℕ
  waited : List ℕ

namespace WriteCall

def begin_ : WriteCall := ⟨.outer 0, fun _ => 0, 0, []⟩

/-- `nvme_write_req` returns. -/
def handOut (w : WriteCall) (rqK : ℕ) (pc : LoopPc) : WriteCall :=
  { w with pc := pc, rid := Function.update w.rid rqK w.issued, issued := w.issued + 1 }

/-- `nvme_check` returns 1. -/
def done (w : WriteCall) (k : ℕ) (pc : LoopPc) : WriteCall :=
  { w with pc := pc, waited := w.waited ++ [w.rid k] }

/-- One step of a call with requests of `step` bytes. When it waits, `check` is what `nvme_check`
returns. -/
def next (writeDeg step len : ℕ) (check : Bool) (w : WriteCall) : Outcome WriteCall :=
  match writeStep writeDeg step len w.pc with
  | (pc', none) => .ok { w with pc := pc' }
  | (pc', some (.request rqK j)) => if j + step < 2 ^ 31 then .ok (w.handOut rqK pc') else .fault
  | (pc', some (.check k)) => .ok (if check then w.done k pc' else w)

/-- When the call returns, it has waited for everything that was handed out. -/
def WaitsForAll (w : WriteCall) : Prop := w.pc = .done → ∀ n < w.issued, n ∈ w.waited

instance decidableWaitsForAll (w : WriteCall) : Decidable w.WaitsForAll :=
  inferInstanceAs (Decidable (_ → _))

/-! ### The request that no call waits for -/

/-- Requests from this number on are not waited for: once the length is covered, the last one. -/
def bound (len : ℕ) (w : WriteCall) : ℕ := if len ≤ progress len w.pc then w.issued - 1 else w.issued

/-- Invariant of a call. -/
structure WaitInv (deg len : ℕ) (w : WriteCall) : Prop where
  inner : ∀ rqK j, w.pc = .inner rqK j → j < len
  batch_le : batch w.pc ≤ deg
  issued_pos : len ≤ progress len w.pc → 0 < w.issued
  held : ∀ k < batch w.pc, w.rid k < w.bound len
  waited : ∀ n ∈ w.waited, n < w.bound len

variable {deg step len : ℕ} {w w' : WriteCall}

theorem waitInv_begin (deg : ℕ) (hlen : 0 < len) : WaitInv deg len begin_ where
  inner := fun _ _ h => by cases h
  batch_le := Nat.zero_le deg
  issued_pos h := absurd h (Nat.not_le_of_lt hlen)
  held _ hk := absurd hk (Nat.not_lt_zero _)
  waited _ hn := absurd hn List.not_mem_nil

/-- A step that neither hands out nor waits, and stays where it is in the range. -/
theorem WaitInv.goto (h : WaitInv deg len w) {pc : LoopPc} (hprog : len ≤ progress len pc ↔
    len ≤ progress len w.pc) (hinner : ∀ rqK j, pc = .inner rqK j → j < len)
    (hbatch : batch pc ≤ batch w.pc) : WaitInv deg len { w with pc := pc } := by
  have hbound : bound len { w with pc := pc } = w.bound len := by
    unfold bound
    simp only [hprog]
  refine ⟨hinner, hbatch.trans h.batch_le, fun hle => h.issued_pos (hprog.mp hle), ?_, ?_⟩
  · rw [hbound]
    exact fun k hk => h.held k (lt_of_lt_of_le hk hbatch)
  · rw [hbound]
    exact h.waited

/-- Before a request the length is not covered. -/
theorem WaitInv.bound_inner (h : WaitInv deg len w) {rqK j : ℕ} (hpc : w.pc = .inner rqK j) :
    w.bound len = w.issued := by
  have hlt : progress len w.pc < len := by
    rw [hpc]
    exact h.inner rqK j hpc
  exact if_neg (Nat.not_le_of_lt hlt)

theorem handOut_rid_of_ne {k rqK : ℕ} (hk : k ≠ rqK) (pc : LoopPc) :
    (w.handOut rqK pc).rid k = w.rid k := Function.update_of_ne hk _ _

/-- A request that does not cover the length. -/
theorem WaitInv.handOut_inner (h : WaitInv deg len w) {rqK j : ℕ} (hpc : w.pc = .inner rqK j)
    (hdeg : rqK < deg) (hlt : j + step < len) :
    WaitInv deg len (w.handOut rqK (.inner (rqK + 1) (j + step))) := by
  have hold := h.bound_inner hpc
  have hnew : (w.handOut rqK (.inner (rqK + 1) (j + step))).bound len = w.issued + 1 :=
    if_neg (Nat.not_le_of_lt hlt)
  refine ⟨?_, hdeg, fun _ => Nat.succ_pos _, ?_, ?_⟩
  · intro rqK' j' he
    cases he
    exact hlt
  · rw [hnew]
    intro k hk
    by_cases hkr : k = rqK
    · subst hkr
      simp [handOut]
    · have hlt := h.held k (by rw [hpc]; exact lt_of_le_of_ne (Nat.le_of_lt_succ hk) hkr)
      rw [hold] at hlt
      rw [handOut_rid_of_ne hkr]
      exact Nat.lt_succ_of_lt hlt
  · rw [hnew]
    intro n hn
    have hlt := h.waited n hn
    rw [hold] at hlt
    exact Nat.lt_succ_of_lt hlt

/-- The request that covers the length is not counted in `rq_k`. -/
theorem WaitInv.handOut_last (h : WaitInv deg len w) {rqK j : ℕ} (hpc : w.pc = .inner rqK j)
    (hle : len ≤ j + step) : WaitInv deg len (w.handOut rqK (.wait 0 rqK (j + step))) := by
  have hold := h.bound_inner hpc
  have hnew : (w.handOut rqK (.wait 0 rqK (j + step))).bound len = w.issued := if_pos hle
  refine ⟨(fun _ _ h => by cases h), ?_, fun _ => Nat.succ_pos _, ?_, ?_⟩
  · have hb := h.batch_le
    rw [hpc] at hb
    exact hb
  · rw [hnew]
    intro k (hk : k < rqK)
    have hlt := h.held k (by rw [hpc]; exact hk)
    rw [hold] at hlt
    rw [handOut_rid_of_ne (Nat.ne_of_lt hk)]
    exact hlt
  · rw [hnew, ← hold]
    exact h.waited

theorem WaitInv.next (h : WaitInv deg len w) (step : ℕ) (check : Bool) :
    (w.next deg step len check).After (WaitInv deg len) := by
  unfold WriteCall.next
  cases hpc : w.pc with
  | outer j =>
    simp only [writeStep]
    split_ifs with hj
    · refine h.goto (by rw [hpc]; rfl) ?_ (Nat.zero_le _)
      intro rqK' j' he
      cases he
      exact hj
    · exact h.goto (by rw [hpc]; exact ⟨fun _ => Nat.le_of_not_lt hj, fun _ => Nat.le_refl len⟩) (by simp)
        (Nat.zero_le _)
  | inner rqK j =>
    simp only [writeStep]
    by_cases hdeg : rqK < deg
    · rw [if_pos hdeg]
      dsimp only
      split_ifs with h1 h2
      · exact h.handOut_last hpc h2
      · exact h.handOut_inner hpc hdeg (Nat.lt_of_not_le h2)
      · trivial
    · rw [if_neg hdeg]
      exact h.goto (by rw [hpc]; rfl) (by simp) (by rw [hpc, batch, batch])
  | wait k rqK j =>
    simp only [writeStep]
    by_cases hk : k < rqK
    · rw [if_pos hk]
      cases check with
      | false => exact h
      | true =>
        have hgoto : WaitInv deg len { w with pc := .wait (k + 1) rqK j } :=
          h.goto (by rw [hpc]; rfl) (by simp) (by rw [hpc]; rfl)
        refine ⟨(fun _ _ h => by cases h), hgoto.batch_le, hgoto.issued_pos, hgoto.held, fun n hn => ?_⟩
        rcases List.mem_append.mp hn with hn | hn
        · exact hgoto.waited n hn
        · rw [List.mem_singleton.mp hn]
          exact hgoto.held k hk
    · rw [if_neg hk]
      exact h.goto (by rw [hpc]; rfl) (by simp) (Nat.zero_le _)
  | done =>
    have hw : { w with pc := .done } = w := by rw [← hpc]
    simp only [writeStep, hw]
    exact h

/-- A call that has returned has not waited for its last request. -/
theorem WaitInv.last_open (h : WaitInv deg len w) (hpc : w.pc = .done) : ¬ w.WaitsForAll := by
  intro hall
  have hbound : w.bound len = w.issued - 1 := by
    unfold bound
    rw [hpc]
    exact if_pos (Nat.le_refl len)
  have hpos := h.issued_pos (by rw [hpc]; exact Nat.le_refl len)
  have hlt := h.waited (w.issued - 1) (hall hpc _ (Nat.sub_lt hpos Nat.one_pos))
  rw [hbound] at hlt
  exact Nat.lt_irrefl _ hlt

/-! ### Calls return -/

theorem WaitInv.stepsLeft_lt (h : WaitInv deg len w) (hdeg : 0 < deg) (hstep : 0 < step)
    (hpc : w.pc ≠ .done) :
    stepsLeft deg len (writeStep deg step len w.pc).1 < stepsLeft deg len w.pc :=
  writeStep_stepsLeft hdeg hstep h.batch_le h.inner hpc

theorem next_quiet {pc : LoopPc} (h : writeStep deg step len w.pc = (pc, none)) {check : Bool} :
    w.next deg step len check = .ok { w with pc := pc } := by
  rw [WriteCall.next, h]

theorem next_request {pc : LoopPc} {rqK j : ℕ}
    (h : writeStep deg step len w.pc = (pc, some (.request rqK j))) (hj : j + step < 2 ^ 31)
    {check : Bool} : w.next deg step len check = .ok (w.handOut rqK pc) := by
  rw [WriteCall.next, h]
  exact if_pos hj

theorem next_check {pc : LoopPc} {k : ℕ} (h : writeStep deg step len w.pc = (pc, some (.check k))) :
    w.next deg step len true = .ok (w.done k pc) := by
  rw [WriteCall.next, h]
  rfl

/-- A call that never has to wait goes on, or counts beyond an `int`. -/
theorem next_true (deg step len : ℕ) (w : WriteCall) : w.next deg step len true = .fault ∨
    ∃ w', w.next deg step len true = .ok w' ∧ w'.pc = (writeStep deg step len w.pc).1 := by
  cases hs : writeStep deg step len w.pc with
  | mk pc act =>
    cases act with
    | none => exact .inr ⟨_, next_quiet hs, rfl⟩
    | some act =>
      cases act with
      | request rqK j =>
        by_cases hj : j + step < 2 ^ 31
        · exact .inr ⟨_, next_request hs hj, rfl⟩
        · left
          rw [WriteCall.next, hs]
          exact if_neg hj
      | check k => exact .inr ⟨_, next_check hs, rfl⟩

/-- A call that never has to wait returns, or counts beyond an `int`. -/
theorem WaitInv.returns (hdeg : 0 < deg) (hstep : 0 < step) : ∀ n w, WaitInv deg len w →
    stepsLeft deg len w.pc ≤ n → ∃ checks, run (WriteCall.next deg step len) checks w = .fault ∨
      ∃ w', run (WriteCall.next deg step len) checks w = .ok w' ∧ w'.pc = .done := by
  intro n
  induction n with
  | zero =>
    intro w h hle
    by_cases hpc : w.pc = .done
    · exact ⟨[], .inr ⟨w, rfl, hpc⟩⟩
    · exact absurd (h.stepsLeft_lt hdeg hstep hpc) (by omega)
  | succ n ih =>
    intro w h hle
    by_cases hpc : w.pc = .done
    · exact ⟨[], .inr ⟨w, rfl, hpc⟩⟩
    · have hinv := h.next step true
      rcases next_true deg step len w with hf | ⟨w', hw', hpc'⟩
      · exact ⟨[true], .inl (by rw [run_cons, hf, Outcome.bind_fault])⟩
      · rw [hw'] at hinv
        have hlt := h.stepsLeft_lt hdeg hstep hpc
        rw [← hpc'] at hlt
        obtain ⟨checks, hrun⟩ := ih w' hinv (by omega)
        refine ⟨true :: checks, ?_⟩
        rw [run_cons, hw', Outcome.bind_ok]
        exact hrun

end WriteCall

/-! ### Calls of the system -/

/-- What the next step of a ULT in `write_impl` adds to the record of its call. -/
def System.follow (c : IoConfig) (s : System) (w : WriteCall) : WriteCall :=
  match s.io with
  | none => w
  | some io =>
    match io.call with
    | .loop =>
      match io.loop c with
      | (back, none) => { w with pc := back }
      | (_, some _) => w
    | .request did rqK back =>
      match (s.driver.queue did io.core).pc with
      | .doorbell _ _ => w.handOut rqK back
      | _ => w
    | .test _ k back => if nvmeDone c.nvme s.driver (io.rid k) then w.done k back else w
    | .poll _ _ => w

/-- A system with the record of the call in progress. -/
structure Followed where
  system : System
  call : WriteCall

def FileStep.followed (c : IoConfig) : FileStep → Followed → Outcome Followed
  | .next, p => (p.system.next c).map fun s => ⟨s, p.system.follow c p.call⟩
  | o, p => (o.step c p.system).map fun s => ⟨s, p.call⟩

/-- The step does not begin another call of `read_impl` or `write_impl`. -/
def FileStep.Beside : FileStep → Followed → Prop
  | .readImpl .., _ | .writeImpl .., _ => False
  | _, _ => True

/-- A function that a loop has called is for the loop's next step. -/
def Io.Called (c : IoConfig) (io : Io) : Prop :=
  match io.call with
  | .loop => True
  | .request _ rqK back => ∃ j, io.loop c = (back, some (.request rqK j)) ∧ j + io.blksz < 2 ^ 31
  | .test _ k back | .poll k back => io.loop c = (back, some (.check k))

/-- The record is that of the call in progress, which writes `len` bytes at `pos`. -/
structure Follows (c : IoConfig) (pos len : ℕ) (io : Io) (w : WriteCall) : Prop where
  write : io.write = true
  pos : io.pos = pos
  len : io.ioLen = len
  pc : io.pc = w.pc
  called : io.Called c

/-- Invariant of a followed system: when the call has returned, its record is at the end. -/
structure FollowInv (c : IoConfig) (pos len : ℕ) (p : Followed) : Prop where
  io : ∀ io, p.system.io = some io → Follows c pos len io p.call
  returned : p.system.io = none → p.call.pc = .done
  waits : p.call.WaitInv c.writeDeg len

section Follow

variable {c : IoConfig} {pos len : ℕ} {io io' : Io} {w : WriteCall} {p : Followed} {s' : System}

theorem Follows.blksz (h : Follows c pos len io w) : io.blksz = writeBlksz pos len := by
  rw [Io.blksz, if_pos h.write, h.pos, h.len]

theorem Follows.loop (h : Follows c pos len io w) :
    io.loop c = writeStep c.writeDeg (writeBlksz pos len) len w.pc := by
  rw [Io.loop, if_pos h.write, h.blksz, h.len, h.pc]

/-- A step that leaves the loop where it is. -/
theorem Follows.setCall (h : Follows c pos len io w) {call : LoopCall}
    (hcalled : Io.Called c { io with call := call }) : Follows c pos len { io with call := call } w :=
  ⟨h.write, h.pos, h.len, h.pc, hcalled⟩

/-- A step that the record takes too. -/
theorem Follows.step (h : Follows c pos len io w) (hwait : w.WaitInv c.writeDeg len) {back : LoopPc}
    {w' : WriteCall} (hw' : w'.pc = back)
    (hnext : w.next c.writeDeg (writeBlksz pos len) len true = .ok w') (rid : ℕ → ℤ) :
    Follows c pos len (Io.resume { io with rid := rid } back) w' ∧ w'.WaitInv c.writeDeg len := by
  refine ⟨⟨h.write, h.pos, h.len, hw'.symm, trivial⟩, ?_⟩
  have hinv := hwait.next (writeBlksz pos len) true
  rw [hnext] at hinv
  exact hinv

/-- A step of the call in progress after which it is still in progress. -/
theorem FollowInv.of_io (hio : p.system.io = some io) (h : Follows c pos len io p.call)
    (hwait : p.call.WaitInv c.writeDeg len) : FollowInv c pos len p where
  io io' hio' := by
    rw [hio] at hio'
    cases hio'
    exact h
  returned hnone := by
    rw [hio] at hnone
    cases hnone
  waits := hwait

/-- A step that leaves the call where it is. -/
theorem FollowInv.congr (h : FollowInv c pos len p) (hio : s'.io = p.system.io) :
    FollowInv c pos len ⟨s', p.call⟩ where
  io io' hio' := h.io io' (hio ▸ hio')
  returned hnone := h.returned (hio ▸ hnone)
  waits := h.waits

/-- The loop goes on, or the call returns. -/
theorem FollowInv.loop (h : FollowInv c pos len p) (hio : p.system.io = some io)
    (hcall : io.call = .loop) :
    ((p.system.loop c io).map fun s => ⟨s, p.system.follow c p.call⟩).After (FollowInv c pos len) := by
  have hf := h.io io hio
  have hfollow : p.system.follow c p.call =
      match io.loop c with
      | (back, none) => { p.call with pc := back }
      | (_, some _) => p.call := by
    rw [System.follow, hio]
    dsimp only
    rw [hcall]
  rw [hfollow]
  unfold System.loop
  split_ifs with hdone
  · have hback : io.loop c = (.done, none) := by
      rw [hf.loop, ← hf.pc, hdone, writeStep]
    have hsame : { p.call with pc := .done } = p.call := by
      rw [← hdone, hf.pc]
    rw [hback]
    exact ⟨by simp, fun _ => rfl, hsame.symm ▸ h.waits⟩
  · cases hloop : io.loop c with
    | mk back act =>
      have hstep := hloop
      rw [hf.loop] at hstep
      cases act with
      | none =>
        obtain ⟨hf', hwait⟩ := hf.step h.waits rfl (WriteCall.next_quiet hstep) io.rid
        exact .of_io rfl hf' hwait
      | some act =>
        cases act with
        | request rqK j =>
          dsimp only
          unfold System.request
          split_ifs with hj hw
          · split
            · trivial
            · trivial
            · exact .of_io rfl (hf.setCall ⟨j, hloop, hj⟩) h.waits
          · exact absurd hf.write hw
          · trivial
        | check k => exact .of_io rfl (hf.setCall hloop) h.waits

/-- A step in `nvme_write_req`. -/
theorem FollowInv.inRequest (h : FollowInv c pos len p) (hio : p.system.io = some io) {did rqK : ℕ}
    {back : LoopPc} (hcall : io.call = .request did rqK back) :
    FollowInv c pos len ⟨p.system.inRequest c io did rqK back, p.system.follow c p.call⟩ := by
  have hf := h.io io hio
  have hcalled := hf.called
  unfold Io.Called at hcalled
  rw [hcall] at hcalled
  obtain ⟨j, hloop, hj⟩ := hcalled
  have hfollow : p.system.follow c p.call =
      match (p.system.driver.queue did io.core).pc with
      | .doorbell _ _ => p.call.handOut rqK back
      | _ => p.call := by
    rw [System.follow, hio]
    dsimp only
    rw [hcall]
  rw [hfollow, System.inRequest]
  cases hpc : (p.system.driver.queue did io.core).pc with
  | doorbell r cid =>
    rw [hf.blksz] at hj
    obtain ⟨hf', hwait⟩ := hf.step h.waits rfl (WriteCall.next_request (hf.loop ▸ hloop) hj)
      (Function.update io.rid rqK (ridOf c.nvme did io.core cid))
    exact .of_io rfl hf' hwait
  | _ => exact h.congr rfl

/-- A test of `done` in `nvme_check`. -/
theorem FollowInv.test (h : FollowInv c pos len p) (hio : p.system.io = some io) {again : Bool} {k : ℕ}
    {back : LoopPc} (hcall : io.call = .test again k back) :
    ((p.system.test c io again k back).map fun s => ⟨s, p.system.follow c p.call⟩).After
      (FollowInv c pos len) := by
  have hf := h.io io hio
  have hloop : io.loop c = (back, some (.check k)) := by
    have hcalled := hf.called
    unfold Io.Called at hcalled
    rw [hcall] at hcalled
    exact hcalled
  have hfollow : p.system.follow c p.call =
      if nvmeDone c.nvme p.system.driver (io.rid k) then p.call.done k back else p.call := by
    rw [System.follow, hio]
    dsimp only
    rw [hcall]
  rw [hfollow]
  unfold System.test
  split_ifs with hdone hrid hrid hagain
  · obtain ⟨hf', hwait⟩ := hf.step h.waits rfl (WriteCall.next_check (hf.loop ▸ hloop)) io.rid
    exact .of_io rfl hf' hwait
  · trivial
  · exact .of_io rfl (hf.setCall hloop) h.waits
  · exact .of_io rfl (hf.setCall hloop) h.waits
  · trivial

/-- A step in the `check_cq` of `nvme_check`. -/
theorem FollowInv.poll (h : FollowInv c pos len p) (hio : p.system.io = some io) {k : ℕ}
    {back : LoopPc} (hcall : io.call = .poll k back) :
    FollowInv c pos len ⟨p.system.poll c io k back, p.system.follow c p.call⟩ := by
  have hf := h.io io hio
  have hloop : io.loop c = (back, some (.check k)) := by
    have hcalled := hf.called
    unfold Io.Called at hcalled
    rw [hcall] at hcalled
    exact hcalled
  have hfollow : p.system.follow c p.call = p.call := by
    rw [System.follow, hio]
    dsimp only
    rw [hcall]
  rw [hfollow, System.poll]
  split
  · exact .of_io rfl (hf.setCall hloop) h.waits
  · exact h.congr rfl

theorem FollowInv.next (h : FollowInv c pos len p) :
    (FileStep.next.followed c p).After (FollowInv c pos len) := by
  rw [FileStep.followed, System.next]
  cases hio : p.system.io with
  | none =>
    have hfollow : p.system.follow c p.call = p.call := by
      rw [System.follow, hio]
    rw [Outcome.map_ok, hfollow]
    exact h
  | some io =>
    dsimp only
    cases hcall : io.call with
    | loop => exact h.loop hio hcall
    | request did rqK back => exact h.inRequest hio hcall
    | test again k back => exact h.test hio hcall
    | poll k back => exact h.poll hio hcall

/-- Whatever the ULT, other ones and the drives do next. -/
theorem FollowInv.followed (h : FollowInv c pos len p) (o : FileStep) (ho : o.Beside p) :
    (o.followed c p).After (FollowInv c pos len) := by
  cases o with
  | next => exact h.next
  | myfsOpen f =>
    change ((p.system.openFile f).map fun s => Followed.mk s p.call).After _
    unfold System.openFile
    split
    · exact h.congr rfl
    · trivial
  | readImpl core hookfd len pos buf => exact absurd ho id
  | writeImpl core hookfd len pos buf => exact absurd ho id
  | _ => exact h.congr rfl

/-- A call of `write_impl` begins. -/
theorem followInv_begin (hlen : 0 < len) {s : System} {core hookfd buf : ℕ}
    (hs : s.writeImpl core hookfd len pos buf = .ok s') : FollowInv c pos len ⟨s', .begin_⟩ := by
  unfold System.writeImpl at hs
  split_ifs at hs
  cases hs
  exact .of_io rfl ⟨rfl, rfl, rfl, rfl, trivial⟩ (WriteCall.waitInv_begin _ hlen)

end Follow

/-- No call of `write_impl` for a positive length waits for all of its requests: when one has returned
it has not waited for the last one, whatever else was done meanwhile, and some calls return. -/
theorem last_request_not_waited {c : IoConfig} (hdeg : 0 < c.writeDeg) {len : ℕ} (hlen : 0 < len)
    (pos : ℕ) :
    (∀ (s s' : System) (core hookfd buf : ℕ), s.writeImpl core hookfd len pos buf = .ok s' →
      ∀ (steps : List FileStep) (p : Followed),
        Meets (FileStep.followed c) FileStep.Beside steps ⟨s', .begin_⟩ →
          run (FileStep.followed c) steps ⟨s', .begin_⟩ = .ok p → p.system.io = none →
            p.call.pc = .done ∧ ¬ p.call.WaitsForAll) ∧
      ¬ ∀ checks, Always (WriteCall.next c.writeDeg (writeBlksz pos len) len) WriteCall.WaitsForAll
        checks .begin_ := by
  constructor
  · intro s s' core hookfd buf hs steps p hbeside hrun hnone
    have h : FollowInv c pos len p := by
      refine run_inv_of_meets (fun o p p' h ho hp => ?_) (followInv_begin hlen hs) hbeside hrun
      have hafter := h.followed o ho
      rw [hp] at hafter
      exact hafter
    exact ⟨h.returned hnone, h.waits.last_open (h.returned hnone)⟩
  · intro hall
    have h := WriteCall.waitInv_begin c.writeDeg hlen
    obtain ⟨checks, hrun⟩ := h.returns hdeg (writeBlksz_pos pos len) _ _ le_rfl
    rcases hrun with hfault | ⟨w, hw, hpc⟩
    · exact (hall checks).not_fault hfault
    · have hinv : WriteCall.WaitInv c.writeDeg len w := by
        refine run_inv_of_meets (A := fun _ _ => True) (fun check w w' h _ hw => ?_) h ?_ hw
        · have hafter := h.next (writeBlksz pos len) check
          rw [hw] at hafter
          exact hafter
        · exact Meets.of_forall (fun _ _ => trivial) checks _
      exact hinv.last_open hpc ((hall checks).at_end hw)

/-- The theorem at a sector and the configured batches. -/
theorem sector_last_not_waited :
    (∀ (s s' : System) (core hookfd buf : ℕ), s.writeImpl core hookfd 512 0 buf = .ok s' →
      ∀ (steps : List FileStep) (p : Followed),
        Meets (FileStep.followed (oneCore 2)) FileStep.Beside steps ⟨s', .begin_⟩ →
          run (FileStep.followed (oneCore 2)) steps ⟨s', .begin_⟩ = .ok p → p.system.io = none →
            p.call.pc = .done ∧ ¬ p.call.WaitsForAll) ∧
      ¬ ∀ checks, Always (WriteCall.next 8 (writeBlksz 0 512) 512) WriteCall.WaitsForAll checks
        .begin_ :=
  last_request_not_waited (show 0 < (oneCore 2).writeDeg by decide) (by decide) 0

/-- A call for one sector of a new file returns while its only command waits in the queue. -/
theorem sector_not_waited :
    ∃ s p, (openedFirst (oneCore 2) (zeroSuperblock numBlocks one_lt_numBlocks) (fun _ _ => 0)
        sevens).writeImpl 0 0 512 0 8192 = .ok s ∧
      run (FileStep.followed (oneCore 2)) (List.replicate 8 .next) ⟨s, .begin_⟩ = .ok p ∧
        p.system.io = none ∧ ¬ p.call.WaitsForAll ∧
          ¬ ((p.system.driver.queue 0 0).cmd 0).stage.Completed := by
  have hwrite : ∃ s, (openedFirst (oneCore 2) (zeroSuperblock numBlocks one_lt_numBlocks) (fun _ _ => 0)
      sevens).writeImpl 0 0 512 0 8192 = .ok s ∧
        ∃ p, run (FileStep.followed (oneCore 2)) (List.replicate 8 .next) ⟨s, .begin_⟩ = .ok p ∧
          p.system.io.isNone ∧ ¬ p.call.WaitsForAll ∧
            ¬ ((p.system.driver.queue 0 0).cmd 0).stage.Completed := by
    decide +kernel
  obtain ⟨s, hs, p, hp, hnone, hwaits, hstage⟩ := hwrite
  exact ⟨s, p, hs, hp, Option.isNone_iff_eq_none.mp hnone, hwaits, hstage⟩

end Pthabt.Hook
