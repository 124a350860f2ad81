import Pthabt.Hook.ReadCount

/-! The `int`s of the request loops. `read_impl` and `write_impl` compare the counter `j`, an `int`,
with a length of 64 bits, so `j += blksz` overflows for lengths near and above `2 ^ 31`; and
`read_impl` stores its length in the `int` `blksz`, also where the position is so far beyond the end
of the file that this is below the range. In all other cases the loop ends after as many requests
as the length takes. -/

namespace Pthabt.Hook

open Lib Run Myfs Nvme

/-- A call of `write_impl` or `read_impl` for `len` bytes from `pos` on; `fileSize` is what
`myfs_get_size` returns. -/
structure RangeCall where
  write : Bool
  fileSize : ℕ
  pos : ℕ
  len : ℕ

/-- The value fits an `int`. -/
def InInt (x : ℤ) : Prop := -2 ^ 31 ≤ x ∧ x < 2 ^ 31

/-- `DIV_CEIL`. -/
def divCeil (x y : ℕ) : ℕ := (x + y - 1) / y

namespace RangeCall

/-- `len`, which `read_impl` cuts to the file. -/
def length (c : RangeCall) : ℤ := if c.write then c.len else clip c.fileSize c.pos c.len

/-- The value that is stored in `blksz`. -/
def stored (c : RangeCall) : ℤ :=
  let whole : ℤ := if c.length.tmod blksz ≠ 0 ∨ c.pos % blksz ≠ 0 then 512 else blksz
  if c.write then whole else if (c.pos % blksz : ℕ) + c.length ≤ blksz then c.length else whole

/-- `blksz`; a negative one is 0, as no request is made with it. -/
def step (c : RangeCall) : ℕ :=
  if c.write then writeBlksz c.pos c.length.toNat else readBlksz c.pos c.length.toNat

def loop (deg : ℕ) (c : RangeCall) : LoopPc → LoopPc × Option LoopAct :=
  if c.write then writeStep deg c.step c.length.toNat else readStep deg c.step c.length.toNat

end RangeCall

/-- A call in its loop, and the values of `j` that it made requests at. -/
structure LoopRun where
  pc : LoopPc
  requests : List ℕ

namespace LoopRun

def start : LoopRun := ⟨.outer 0, []⟩

/-- One step of the loop. When it waits, `check` is what `nvme_check` returns. -/
def next (deg : ℕ) (c : RangeCall) (check : Bool) (r : LoopRun) : Outcome LoopRun :=
  match c.loop deg r.pc with
  | (pc', none) => .ok { r with pc := pc' }
  | (pc', some (.request _ j)) =>
    if j + c.step < 2 ^ 31 then .ok ⟨pc', r.requests ++ [j]⟩ else .fault
  | (pc', some (.check _)) => .ok (if check then { r with pc := pc' } else r)

end LoopRun

/-- No `int` overflows; the loop makes its requests inside the range; and when every request is done
at some time, it ends after as many as the length takes. -/
structure LoopEnds (deg : ℕ) (c : RangeCall) : Prop where
  blksz : InInt c.stored
  counter : ∀ checks, run (LoopRun.next deg c) checks .start ≠ .fault
  inRange : ∀ checks r, run (LoopRun.next deg c) checks .start = .ok r →
    ∀ j ∈ r.requests, (j : ℤ) < c.length
  ends : ∃ n, ∀ checks : List Bool, n ≤ checks.count true →
    ∃ r, run (LoopRun.next deg c) checks .start = .ok r ∧ r.pc = .done ∧
      r.requests.length = divCeil c.length.toNat c.step

/-- The length is at most `2 ^ 31 - 512`, which for a read is enough of the part that the file has;
and a read does not begin more than `2 ^ 31` bytes after its end. -/
def RangeCall.CounterFits (c : RangeCall) : Prop :=
  if c.write then c.len ≤ 2 ^ 31 - 512
  else c.pos ≤ c.fileSize + 2 ^ 31 ∧ (c.len ≤ 2 ^ 31 - 512 ∨ c.fileSize ≤ c.pos + (2 ^ 31 - 512))

/-! ### Arithmetic of the lengths -/

theorem clip_eq_min {fileSize pos len : ℕ} (hsize : fileSize < 2 ^ 63) (hpos : pos < 2 ^ 63)
    (hlen : len < 2 ^ 63) : clip fileSize pos len = min (len : ℤ) (fileSize - pos) := by
  have hsum : ((pos : ℤ) + len) % 2 ^ 64 = pos + len := Int.emod_eq_of_lt (by omega) (by omega)
  rw [clip, hsum]
  split_ifs with h
  · have hloff : toLoff ((fileSize : ℤ) - pos) = (fileSize : ℤ) - pos :=
      Int.bmod_eq_of_le_mul_two (by omega) (by omega)
    rw [hloff]
    omega
  · omega

/-- Rounded up to sectors or chunks, a length is an `int` when it is one of those below `2 ^ 31`. -/
theorem divCeil_writeBlksz (pos len : ℕ) :
    divCeil len (writeBlksz pos len) * writeBlksz pos len < 2 ^ 31 ↔ len ≤ 2 ^ 31 - 512 := by
  unfold writeBlksz divCeil Nvme.blksz
  split_ifs with h
  · omega
  · push Not at h
    have hlen := h.1
    omega

theorem divCeil_self {n : ℕ} (h : 0 < n) : divCeil n n = 1 := by
  rw [divCeil, show n + n - 1 = n - 1 + n by omega, Nat.add_div_right _ h,
    Nat.div_eq_of_lt (by omega)]

theorem divCeil_readBlksz (pos len : ℕ) :
    divCeil len (readBlksz pos len) * readBlksz pos len < 2 ^ 31 ↔ len ≤ 2 ^ 31 - 512 := by
  unfold readBlksz
  split_ifs with h
  · unfold Nvme.blksz at h
    by_cases hzero : len = 0
    · subst hzero
      decide
    · rw [divCeil_self (Nat.pos_of_ne_zero hzero)]
      omega
  · exact divCeil_writeBlksz pos len

/-- A multiple of the step below the length is one of the steps that the length takes. -/
theorem lt_divCeil {n step len : ℕ} (hstep : 0 < step) (h : n * step < len) : n < divCeil len step := by
  rw [divCeil, Nat.lt_iff_add_one_le, Nat.le_div_iff_mul_le hstep, Nat.succ_mul]
  omega

theorem divCeil_eq {n step len : ℕ} (hcover : len ≤ n * step) (hbelow : ∀ m < n, m * step < len)
    (hstep : 0 < n → 0 < step) : divCeil len step = n := by
  cases n with
  | zero =>
    have hlen : len = 0 := by omega
    subst hlen
    cases step with
    | zero => rfl
    | succ step =>
      rw [divCeil, Nat.zero_add]
      exact Nat.div_eq_of_lt (by omega)
  | succ n =>
    have hpos := hstep (Nat.succ_pos n)
    have hlt := lt_divCeil hpos (hbelow n (Nat.lt_succ_self n))
    refine Nat.le_antisymm ?_ hlt
    rw [divCeil, ← Nat.lt_succ_iff, Nat.div_lt_iff_lt_mul hpos, Nat.succ_mul]
    omega

namespace RangeCall

variable {c : RangeCall}

theorem step_pos (c : RangeCall) (h : 0 < c.length.toNat) : 0 < c.step := by
  unfold step
  split_ifs
  · exact writeBlksz_pos _ _
  · exact readBlksz_pos _ h

theorem end_lt_iff (c : RangeCall) :
    divCeil c.length.toNat c.step * c.step < 2 ^ 31 ↔ c.length ≤ 2 ^ 31 - 512 := by
  have hnat : c.length.toNat ≤ 2 ^ 31 - 512 ↔ c.length ≤ 2 ^ 31 - 512 := by omega
  rw [← hnat]
  unfold step
  split_ifs
  · exact divCeil_writeBlksz _ _
  · exact divCeil_readBlksz _ _

/-- What `blksz` is stored from is out of range only for a read far beyond the file. -/
theorem stored_fits_iff (c : RangeCall) : InInt c.stored ↔ -2 ^ 31 ≤ c.length := by
  unfold stored InInt
  cases hw : c.write with
  | true =>
    have hlen : 0 ≤ c.length := by
      rw [length, hw]
      exact Int.natCast_nonneg _
    simp only [if_true, Nvme.blksz]
    split_ifs <;> omega
  | false =>
    simp only [Bool.false_eq_true, if_false, Nvme.blksz]
    split_ifs <;> omega

/-- The condition in terms of the length that the loop covers. -/
theorem counterFits_iff (hsize : c.fileSize < 2 ^ 63) (hpos : c.pos < 2 ^ 63)
    (hlen : c.len < 2 ^ 63) : c.CounterFits ↔ -2 ^ 31 ≤ c.length ∧ c.length ≤ 2 ^ 31 - 512 := by
  unfold CounterFits length
  split_ifs
  · omega
  · rw [clip_eq_min hsize hpos hlen]
    omega

end RangeCall

/-! ### What one step of a loop does -/

/-- The steps of the two loops. -/
inductive LoopMove (deg step len : ℕ) : LoopPc → LoopPc → Option LoopAct → Prop
  | enter {j} (h : j < len) : LoopMove deg step len (.outer j) (.inner 0 j) none
  | leave {j} (h : len ≤ j) : LoopMove deg step len (.outer j) .done none
  | request {k j} (hk : k < deg) (h : j < len) :
      LoopMove deg step len (.inner k j) (.inner (k + 1) (j + step)) (some (.request k j))
  | last {k j} (hk : k < deg) (h : j < len) :
      LoopMove deg step len (.inner k j) (.wait 0 k (j + step)) (some (.request k j))
  | full {k j} : LoopMove deg step len (.inner k j) (.wait 0 k j) none
  | check {k n j} (h : k < n) :
      LoopMove deg step len (.wait k n j) (.wait (k + 1) n j) (some (.check k))
  | back {k n j} : LoopMove deg step len (.wait k n j) (.outer j) none
  | done : LoopMove deg step len .done .done none

section Moves

variable {deg step len : ℕ} {pc : LoopPc}

theorem readStep_move (deg step len : ℕ) (pc : LoopPc) :
    LoopMove deg step len pc (readStep deg step len pc).1 (readStep deg step len pc).2 := by
  cases pc with
  | outer j =>
    simp only [readStep]
    split_ifs with h
    · exact .enter h
    · exact .leave (Nat.le_of_not_lt h)
  | inner k j =>
    simp only [readStep]
    split_ifs with hk h
    · exact .full
    · exact .request hk (Nat.lt_of_not_le h)
    · exact .full
  | wait k n j =>
    simp only [readStep]
    split_ifs with h
    · exact .check h
    · exact .back
  | done => exact .done

theorem writeStep_move (deg : ℕ) (h : BelowLen step len pc) :
    LoopMove deg step len pc (writeStep deg step len pc).1 (writeStep deg step len pc).2 := by
  cases pc with
  | outer j =>
    simp only [writeStep]
    split_ifs with hj
    · exact .enter hj
    · exact .leave (Nat.le_of_not_lt hj)
  | inner k j =>
    simp only [writeStep]
    split_ifs with hk hle
    · exact .last hk h.2
    · exact .request hk h.2
    · exact .full
  | wait k n j =>
    simp only [writeStep]
    split_ifs with hk
    · exact .check hk
    · exact .back
  | done => exact .done

end Moves

/-! ### Invariant of a run -/

section Runs

variable {deg : ℕ} {c : RangeCall} {r : LoopRun}

/-- The loop has come as far as `n` requests take it. -/
def CountedTo (step len n : ℕ) : LoopPc → Prop
  | .outer j | .inner _ j | .wait _ _ j => j = n * step
  | .done => len ≤ n * step

/-- The requests so far are the first multiples of the step, all inside the range and with the sum
that follows them in the range of an `int`. -/
structure CountInv (deg : ℕ) (c : RangeCall) (r : LoopRun) : Prop where
  reaches : Reaches (c.loop deg) r.pc
  batch_le : batch r.pc ≤ deg
  counted : CountedTo c.step c.length.toNat r.requests.length r.pc
  requests : r.requests = (List.range r.requests.length).map (· * c.step)
  below : ∀ j ∈ r.requests, j < c.length.toNat ∧ j + c.step < 2 ^ 31

theorem countInv_start (deg : ℕ) (c : RangeCall) : CountInv deg c .start where
  reaches := .start
  batch_le := Nat.zero_le deg
  counted := (Nat.zero_mul _).symm
  requests := rfl
  below _ hj := absurd hj List.not_mem_nil

theorem CountInv.move (h : CountInv deg c r) :
    LoopMove deg c.step c.length.toNat r.pc (c.loop deg r.pc).1 (c.loop deg r.pc).2 := by
  have hreaches := h.reaches
  unfold RangeCall.loop at hreaches ⊢
  split_ifs at hreaches ⊢
  · exact writeStep_move deg (write_below hreaches)
  · exact readStep_move deg _ _ _

/-- Every step brings the end of the loop nearer. -/
theorem CountInv.stepsLeft_lt (h : CountInv deg c r) (hdeg : 0 < deg) (hpc : r.pc ≠ .done) :
    stepsLeft deg c.length.toNat (c.loop deg r.pc).1 < stepsLeft deg c.length.toNat r.pc := by
  have hreaches := h.reaches
  have hpos := c.step_pos
  unfold RangeCall.loop at hreaches ⊢
  split_ifs at hreaches ⊢ with hw
  · have hstep : 0 < c.step := by
      rw [RangeCall.step, if_pos hw]
      exact writeBlksz_pos _ _
    refine writeStep_stepsLeft hdeg hstep h.batch_le (fun k j he => ?_) hpc
    have hbelow := write_below hreaches
    rw [he] at hbelow
    exact hbelow.2
  · exact readStep_stepsLeft hdeg hpos h.batch_le hpc

/-- A step that makes no request. -/
theorem CountInv.quiet (h : CountInv deg c r) {act : Option LoopAct}
    (hact : (c.loop deg r.pc).2 = act) (hno : ∀ k j, act ≠ some (.request k j)) :
    CountInv deg c { r with pc := (c.loop deg r.pc).1 } := by
  have hmove := h.move
  have hcounted := h.counted
  have hbatch := h.batch_le
  rw [hact] at hmove
  refine ⟨.step h.reaches, ?_, ?_, h.requests, h.below⟩
  · generalize (c.loop deg r.pc).1 = pc at hmove
    cases hpc : r.pc <;> rw [hpc] at hmove hbatch <;> cases hmove
    case request k j hk hj => exact absurd rfl (hno k j)
    case last k j hk hj => exact absurd rfl (hno k j)
    case full => exact hbatch
    case check => exact hbatch
    all_goals exact Nat.zero_le deg
  · dsimp only
    generalize (c.loop deg r.pc).1 = pc at hmove
    cases hpc : r.pc <;> rw [hpc] at hmove hcounted <;> cases hmove
    case request k j hk hj => exact absurd rfl (hno k j)
    case last k j hk hj => exact absurd rfl (hno k j)
    case leave j hj =>
      exact hj.trans (Nat.le_of_eq hcounted)
    all_goals exact hcounted

/-- Before a request, its place in the range. -/
theorem CountInv.at_request (h : CountInv deg c r) {k j : ℕ}
    (hact : (c.loop deg r.pc).2 = some (.request k j)) :
    j = r.requests.length * c.step ∧ j < c.length.toNat := by
  have hmove := h.move
  have hcounted := h.counted
  rw [hact] at hmove
  generalize (c.loop deg r.pc).1 = pc at hmove
  cases hpc : r.pc <;> rw [hpc] at hmove hcounted <;> cases hmove
  case request hk hj => exact ⟨hcounted, hj⟩
  case last hk hj => exact ⟨hcounted, hj⟩

theorem CountInv.request (h : CountInv deg c r) {k j : ℕ}
    (hact : (c.loop deg r.pc).2 = some (.request k j)) (hj : j + c.step < 2 ^ 31) :
    CountInv deg c ⟨(c.loop deg r.pc).1, r.requests ++ [j]⟩ := by
  have hmove := h.move
  obtain ⟨hat, hlt⟩ := h.at_request hact
  rw [hact] at hmove
  have hlength : (r.requests ++ [j]).length = r.requests.length + 1 := by simp
  refine ⟨.step h.reaches, ?_, ?_, ?_, ?_⟩
  · generalize (c.loop deg r.pc).1 = pc at hmove
    cases hpc : r.pc <;> rw [hpc] at hmove <;> cases hmove
    case request hk _ => exact hk
    case last hk _ => exact Nat.le_of_lt hk
  · dsimp only
    rw [hlength]
    have hnext : j + c.step = (r.requests.length + 1) * c.step := by rw [hat, Nat.succ_mul]
    generalize (c.loop deg r.pc).1 = pc at hmove
    cases hpc : r.pc <;> rw [hpc] at hmove <;> cases hmove
    case request => exact hnext
    case last => exact hnext
  · dsimp only
    rw [hlength, List.range_succ, List.map_append, ← h.requests, hat]
    rfl
  · intro i hi
    rcases List.mem_append.mp hi with hi | hi
    · exact h.below i hi
    · rw [List.mem_singleton.mp hi]
      exact ⟨hlt, hj⟩

/-- One step: it faults at a request after which the counter is out of range, and otherwise keeps the
invariant, and goes on unless it waits. -/
theorem CountInv.next (h : CountInv deg c r) (check : Bool) :
    (r.next deg c check = .fault ∧ ∃ j, j = r.requests.length * c.step ∧ j < c.length.toNat ∧
        2 ^ 31 ≤ j + c.step) ∨
      ∃ r', r.next deg c check = .ok r' ∧ CountInv deg c r' ∧
        (r'.pc = (c.loop deg r.pc).1 ∨ check = false ∧ r' = r) := by
  unfold LoopRun.next
  cases hs : c.loop deg r.pc with
  | mk pc act =>
    have hpc : (c.loop deg r.pc).1 = pc := by rw [hs]
    have hact : (c.loop deg r.pc).2 = act := by rw [hs]
    cases act with
    | none =>
      have hinv := h.quiet hact nofun
      rw [hpc] at hinv
      exact .inr ⟨_, rfl, hinv, .inl rfl⟩
    | some act =>
      cases act with
      | request k j =>
        obtain ⟨hat, hlt⟩ := h.at_request hact
        dsimp only
        split_ifs with hj
        · have hinv := h.request hact hj
          rw [hpc] at hinv
          exact .inr ⟨_, rfl, hinv, .inl rfl⟩
        · exact .inl ⟨rfl, j, hat, hlt, Nat.le_of_not_lt hj⟩
      | check k =>
        have hinv := h.quiet hact nofun
        rw [hpc] at hinv
        cases check with
        | true => exact .inr ⟨_, rfl, hinv, .inl rfl⟩
        | false => exact .inr ⟨_, rfl, h, .inr ⟨rfl, rfl⟩⟩

theorem countInv_run (checks : List Bool) : ∀ {r r' : LoopRun}, CountInv deg c r →
    run (LoopRun.next deg c) checks r = .ok r' → CountInv deg c r' := by
  induction checks with
  | nil =>
    intro r r' h hr
    simp only [run_nil, Outcome.ok.injEq] at hr
    exact hr ▸ h
  | cons b checks ih =>
    intro r r' h hr
    obtain ⟨u, hu, hr⟩ := Outcome.bind_eq_ok hr
    rcases h.next b with ⟨hf, -⟩ | ⟨r'', hr'', hinv, -⟩
    · rw [hf] at hu
      cases hu
    · rw [hr'', Outcome.ok.injEq] at hu
      exact ih (hu ▸ hinv) hr

/-- The counter fits when the end of the last request does. -/
theorem CountInv.next_fits (h : CountInv deg c r)
    (hend : divCeil c.length.toNat c.step * c.step < 2 ^ 31) (check : Bool) :
    ∃ r', r.next deg c check = .ok r' ∧ CountInv deg c r' ∧
      (r'.pc = (c.loop deg r.pc).1 ∨ check = false ∧ r' = r) := by
  rcases h.next check with ⟨-, j, hat, hlt, hover⟩ | hok
  · have hpos := c.step_pos (Nat.zero_lt_of_lt hlt)
    have hn := lt_divCeil hpos (hat ▸ hlt)
    have hle := Nat.mul_le_mul_right c.step (Nat.succ_le_of_lt hn)
    rw [Nat.succ_mul, ← hat] at hle
    omega
  · exact hok

theorem loop_done (deg : ℕ) (c : RangeCall) : c.loop deg .done = (.done, none) := by
  unfold RangeCall.loop
  split_ifs <;> rfl

/-- The loop ends when it has gone on often enough. -/
theorem CountInv.ends (hdeg : 0 < deg) (hend : divCeil c.length.toNat c.step * c.step < 2 ^ 31)
    (checks : List Bool) : ∀ {r : LoopRun}, CountInv deg c r →
      ∃ r', run (LoopRun.next deg c) checks r = .ok r' ∧ CountInv deg c r' ∧
        (stepsLeft deg c.length.toNat r.pc ≤ checks.count true → r'.pc = .done) := by
  induction checks with
  | nil =>
    intro r h
    refine ⟨r, rfl, h, fun hle => ?_⟩
    by_contra hpc
    have hlt := h.stepsLeft_lt hdeg hpc
    rw [List.count_nil] at hle
    omega
  | cons b checks ih =>
    intro r h
    obtain ⟨u, hu, hinv, hgo⟩ := h.next_fits hend b
    obtain ⟨r', hr', hinv', hdone⟩ := ih hinv
    refine ⟨r', ?_, hinv', fun hle => hdone ?_⟩
    · rw [run_cons, hu, Outcome.bind_ok, hr']
    · rw [List.count_cons] at hle
      by_cases hpc : r.pc = .done
      · have hstay : u.pc = .done := by
          rcases hgo with hgo | ⟨-, rfl⟩
          · rw [hgo, hpc, loop_done]
          · exact hpc
        rw [hstay]
        exact Nat.zero_le _
      · have hlt := h.stepsLeft_lt hdeg hpc
        rcases hgo with hgo | ⟨rfl, rfl⟩
        · rw [hgo]
          split_ifs at hle <;> omega
        · simpa using hle

/-- After the end, the loop has made as many requests as the length takes. -/
theorem CountInv.length_eq (h : CountInv deg c r) (hpc : r.pc = .done) :
    r.requests.length = divCeil c.length.toNat c.step := by
  have hcover := h.counted
  rw [hpc] at hcover
  have hbelow : ∀ m < r.requests.length, m * c.step < c.length.toNat := by
    intro m hm
    refine (h.below (m * c.step) ?_).1
    rw [h.requests]
    exact List.mem_map.mpr ⟨m, List.mem_range.mpr (by simpa using hm), rfl⟩
  refine (divCeil_eq hcover hbelow fun hn => c.step_pos ?_).symm
  exact Nat.zero_lt_of_lt (hbelow 0 hn)

/-- The end of the last request of a loop that has ended. -/
theorem CountInv.end_lt (h : CountInv deg c r) (hpc : r.pc = .done) :
    divCeil c.length.toNat c.step * c.step < 2 ^ 31 := by
  rw [← h.length_eq hpc]
  cases hn : r.requests.length with
  | zero =>
    rw [Nat.zero_mul]
    decide
  | succ n =>
    have hlast := (h.below (n * c.step) ?_).2
    · rw [Nat.succ_mul]
      exact hlast
    · rw [h.requests, hn]
      exact List.mem_map.mpr ⟨n, List.mem_range.mpr (Nat.lt_succ_self n), rfl⟩

end Runs

/-- The loops keep to the range of an `int`, and end, exactly for these lengths. -/
theorem request_loops_iff {deg : ℕ} (hdeg : 0 < deg) (c : RangeCall)
    (hsize : c.fileSize ≤ maxBlocksPerFile * blockSize) (hpos : c.pos < 2 ^ 63)
    (hlen : c.len < 2 ^ 63) : LoopEnds deg c ↔ c.CounterFits := by
  have hmax : maxBlocksPerFile = 131072 := by simp [maxBlocksPerFile]
  have hblock : blockSize = 2097152 := by simp [blockSize]
  rw [hmax, hblock] at hsize
  have hstart := countInv_start deg c
  rw [RangeCall.counterFits_iff (by omega) hpos hlen, ← c.end_lt_iff, ← c.stored_fits_iff]
  constructor
  · intro h
    refine ⟨h.blksz, ?_⟩
    obtain ⟨n, hn⟩ := h.ends
    obtain ⟨r, hr, hpc, -⟩ := hn (List.replicate n true) (by simp)
    exact (countInv_run _ hstart hr).end_lt hpc
  · rintro ⟨hstored, hend⟩
    refine ⟨hstored, fun checks hf => ?_, fun checks r hr j hj => ?_, ?_⟩
    · obtain ⟨r, hr, -⟩ := hstart.ends hdeg hend checks
      rw [hr] at hf
      cases hf
    · have hlt := ((countInv_run checks hstart hr).below j hj).1
      omega
    · refine ⟨stepsLeft deg c.length.toNat LoopRun.start.pc, fun checks hle => ?_⟩
      obtain ⟨r, hr, hinv, hdone⟩ := hstart.ends hdeg hend checks
      exact ⟨r, hr, hdone hle, hinv.length_eq (hdone hle)⟩

/-- The theorem at the longest write that the counter covers. -/
theorem longest_write_ends : LoopEnds 8 ⟨true, 0, 0, 2 ^ 31 - 512⟩ := by
  refine (request_loops_iff (by decide) _ (Nat.zero_le _) ?_ ?_).mpr ?_
  · decide
  · decide
  · exact Nat.le_refl _

/-- A write of `2 ^ 31` bytes counts beyond an `int`. -/
theorem long_write_not_ends : ¬ LoopEnds 8 ⟨true, 0, 0, 2 ^ 31⟩ := by
  intro h
  obtain ⟨n, hn⟩ := h.ends
  obtain ⟨r, hr, hpc, -⟩ := hn (List.replicate n true) (by simp)
  have hend := (countInv_run _ (countInv_start _ _) hr).end_lt hpc
  rw [RangeCall.end_lt_iff] at hend
  exact absurd hend (by decide)

end Pthabt.Hook
