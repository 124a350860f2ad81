import Pthabt.Lib.Run
import Mathlib.Logic.Function.Basic
import Mathlib.Data.Int.Notation

/-! `__io_uring_check` (`hook.c`): it walks the completions of a core that were not removed yet,
sets `done_flag` for each one with a positive result, and removes as many as it has set. The
kernel posts completions at any time. A check does not yield, so the checks of a core follow
one another. -/

namespace Pthabt.IoUring

open Run

/-- `struct io_uring_cqe`. -/
structure Cqe where
  userData : ℕ
  res : ℤ

/-- All completions that the kernel posted on the ring of a core, in order, the number of
them that were removed, and `done_flag`; which completions checks have examined and which have
set a flag, and how many were posted when the last check ended. -/
structure Cq where
  posted : List Cqe
  khead : ℕ
  doneFlag : ℕ → Bool
  examined : List ℕ
  flagged : List ℕ
  checked : ℕ

/-- The locals of `__io_uring_check`. -/
structure Walk where
  head : ℕ
  i : ℕ
  deriving DecidableEq

namespace Cq

def post (q : Cq) (c : Cqe) : Cq := { q with posted := q.posted ++ [c] }

/-- `done_flag[core_id][sqe_id] = 0` for a new request. -/
def clear (q : Cq) (sqeId : ℕ) : Cq := { q with doneFlag := Function.update q.doneFlag sqeId false }

/-- `io_uring_for_each_cqe` starts at the oldest completion that is left. -/
def begin_ (q : Cq) : Walk := ⟨q.khead, 0⟩

/-- The body of `io_uring_for_each_cqe` for the completion `c` at `w.head`. -/
def examine (q : Cq) (w : Walk) (c : Cqe) : Cq × Walk :=
  if 0 < c.res then
    ({ q with
        doneFlag := Function.update q.doneFlag c.userData true
        examined := q.examined ++ [w.head]
        flagged := q.flagged ++ [w.head] }, ⟨w.head + 1, w.i + 1⟩)
  else ({ q with examined := q.examined ++ [w.head] }, ⟨w.head + 1, w.i⟩)

/-- `io_uring_cq_advance`, if there is anything to remove. -/
def advance (q : Cq) (w : Walk) : Cq :=
  { q with khead := if 0 < w.i then q.khead + w.i else q.khead, checked := q.posted.length }

/-- One iteration of `io_uring_for_each_cqe`, or the end of the check. -/
def iterate (q : Cq) (w : Walk) : Cq × Option Walk :=
  match q.posted[w.head]? with
  | some c => ((q.examine w c).1, some (q.examine w c).2)
  | none => (q.advance w, none)

/-- The completions that are left. -/
def left (q : Cq) : List Cqe := q.posted.drop q.khead

end Cq

/-- A ring and the check that is in progress. -/
structure Checks where
  cq : Cq
  walk : Option Walk

/-- The kernel posts a completion, a request takes a slot, a check begins, or it goes on. -/
inductive CheckStep where
  | post (c : Cqe)
  | request (sqeId : ℕ)
  | begin_
  | next

def CheckStep.step : CheckStep → Checks → Outcome Checks
  | .post c, s => .ok { s with cq := s.cq.post c }
  | .request sqeId, s => .ok { s with cq := s.cq.clear sqeId }
  | .begin_, s => .ok { s with walk := some s.cq.begin_ }
  | .next, s =>
    match s.walk with
    | some w => .ok ⟨(s.cq.iterate w).1, (s.cq.iterate w).2⟩
    | none => .ok s

/-- A check begins after the one before has ended, and no request comes between. -/
def CheckStep.Admissible : CheckStep → Checks → Prop
  | .post _, _ => True
  | .request _, s | .begin_, s => s.walk = none
  | .next, s => s.walk ≠ none

/-- Between checks exactly the completions that were examined are removed, each was examined
once, and they are all that were posted before the last check ended; no completion has set a flag
twice. -/
structure Consumed (s : Checks) : Prop where
  removed : s.walk = none → s.cq.examined = List.range s.cq.khead
  all : s.walk = none → s.cq.khead = s.cq.checked
  once : s.cq.flagged.Nodup

/-- A check ends with a positive result in each completion that it has walked. -/
def CheckStep.Positive : CheckStep → Checks → Prop
  | .next, s => ∀ w, s.walk = some w → s.cq.posted[w.head]? = none → ∀ c ∈ s.cq.left, 0 < c.res
  | _, _ => True

/-! ### Invariant -/

/-- What a check that has walked the first `n` completions left says of its locals. -/
structure WalkAt (q : Cq) (w : Walk) (n : ℕ) : Prop where
  head : w.head = q.khead + n
  le : n ≤ q.left.length
  i : w.i = (q.left.take n).countP (0 < ·.res)

/-- The completions examined are those removed and the first `n` of those left; the flags were
set by some of them, once each. -/
structure CqInv (q : Cq) (n : ℕ) : Prop where
  le : q.khead ≤ q.posted.length
  examined : q.examined = List.range (q.khead + n)
  once : q.flagged.Nodup
  flagged : ∀ k ∈ q.flagged, k < q.khead + n

/-- Invariant of runs in which every check ends with positive results only. -/
inductive CheckInv (s : Checks) : Prop where
  | rest (walk : s.walk = none) (cq : CqInv s.cq 0) (checked : s.cq.khead = s.cq.checked)
  | walking (w : Walk) (n : ℕ) (walk : s.walk = some w) (cq : CqInv s.cq n) (at_ : WalkAt s.cq w n)

theorem CheckInv.consumed {s : Checks} (h : CheckInv s) : Consumed s := by
  cases h with
  | rest hw hq hc => exact ⟨fun _ => hq.examined, fun _ => hc, hq.once⟩
  | walking w n hw hq hat =>
    have hne : s.walk ≠ none := by rw [hw]; exact Option.some_ne_none w
    exact ⟨fun h => absurd h hne, fun h => absurd h hne, hq.once⟩

namespace Cq

variable {q : Cq} {w : Walk} {n : ℕ}

theorem length_left (q : Cq) : q.left.length = q.posted.length - q.khead := List.length_drop

theorem left_getElem? (q : Cq) (k : ℕ) : q.left[k]? = q.posted[q.khead + k]? :=
  List.getElem?_drop

theorem left_post (c : Cqe) (h : q.khead ≤ q.posted.length) : (q.post c).left = q.left ++ [c] :=
  List.drop_append_of_le_length h

theorem inv_post (h : CqInv q n) (c : Cqe) : CqInv (q.post c) n where
  le := by
    change q.khead ≤ (q.posted ++ [c]).length
    rw [List.length_append]
    exact Nat.le_add_right_of_le h.le
  examined := h.examined
  once := h.once
  flagged := h.flagged

theorem walkAt_post (h : WalkAt q w n) (hq : q.khead ≤ q.posted.length) (c : Cqe) :
    WalkAt (q.post c) w n where
  head := h.head
  le := by
    rw [left_post c hq, List.length_append]
    exact Nat.le_add_right_of_le h.le
  i := by rw [left_post c hq, List.take_append_of_le_length h.le, h.i]

theorem inv_examine (h : CqInv q n) (hw : w.head = q.khead + n) (c : Cqe) :
    CqInv (q.examine w c).1 (n + 1) := by
  have hexamined : q.examined ++ [w.head] = List.range (q.khead + (n + 1)) := by
    rw [h.examined, hw, ← Nat.add_assoc, List.range_succ]
  have hold : ∀ k ∈ q.flagged, k < q.khead + (n + 1) := fun k hk =>
    Nat.lt_succ_of_lt (h.flagged k hk)
  unfold examine
  split_ifs with hc
  · refine ⟨h.le, hexamined, ?_, ?_⟩
    · -- the completion at `w.head` comes after all that were examined before
      rw [List.nodup_append]
      refine ⟨h.once, List.pairwise_singleton _ _, fun k hk l hl => ?_⟩
      have := h.flagged k hk
      rw [List.mem_singleton.mp hl]
      omega
    · intro k hk
      rcases List.mem_append.mp hk with hk | hk
      · exact hold k hk
      · rw [List.mem_singleton.mp hk, hw]
        exact Nat.lt_succ_self _
  · exact ⟨h.le, hexamined, h.once, hold⟩

theorem walkAt_examine (h : WalkAt q w n) {c : Cqe} (hc : q.posted[w.head]? = some c) :
    WalkAt (q.examine w c).1 (q.examine w c).2 (n + 1) := by
  have hleft : q.left[n]? = some c := by rw [left_getElem?, ← h.head, hc]
  have hlt : n < q.left.length := (List.getElem?_eq_some_iff.mp hleft).1
  have htake : q.left.take (n + 1) = q.left.take n ++ [c] := by
    rw [List.take_add_one, hleft, Option.toList_some]
  have hcount : (q.left.take (n + 1)).countP (0 < ·.res) =
      w.i + if 0 < c.res then 1 else 0 := by
    rw [htake, List.countP_append, ← h.i, List.countP_singleton]
    simp only [decide_eq_true_eq]
  unfold examine
  split_ifs with hpos
  · rw [if_pos hpos] at hcount
    exact ⟨by rw [h.head]; rfl, hlt, hcount.symm⟩
  · rw [if_neg hpos] at hcount
    exact ⟨by rw [h.head]; rfl, hlt, hcount.symm⟩

/-- At the end of the queue everything that is left was walked. -/
theorem walkAt_end (h : WalkAt q w n) (hq : q.khead ≤ q.posted.length)
    (hend : q.posted[w.head]? = none) : q.khead + n = q.posted.length ∧ w.i = q.left.countP (0 < ·.res) := by
  have hle := h.le
  rw [length_left] at hle
  rw [List.getElem?_eq_none_iff, h.head] at hend
  have hn : q.left.length ≤ n := by rw [length_left]; omega
  refine ⟨by omega, ?_⟩
  rw [h.i, List.take_of_length_le hn]

theorem khead_advance (q : Cq) (w : Walk) : (q.advance w).khead = q.khead + w.i := by
  unfold advance
  dsimp only
  split_ifs <;> omega

end Cq

/-! ### Steps -/

theorem checkInv_next {s : Checks} {w : Walk} {n : ℕ} (hw : s.walk = some w) (hq : CqInv s.cq n)
    (hat : WalkAt s.cq w n) (hC : CheckStep.next.Positive s) :
    CheckInv ⟨(s.cq.iterate w).1, (s.cq.iterate w).2⟩ := by
  unfold Cq.iterate
  cases hc : s.cq.posted[w.head]? with
  | some c => exact .walking _ (n + 1) rfl (Cq.inv_examine hq hat.head c) (Cq.walkAt_examine hat hc)
  | none =>
    obtain ⟨hlen, hi⟩ := Cq.walkAt_end hat hq.le hc
    have hall : w.i = s.cq.left.length := by
      rw [hi, List.countP_eq_length]
      intro c hmem
      exact decide_eq_true (hC w hw hc c hmem)
    have hhead : (s.cq.advance w).khead = s.cq.khead + n := by
      rw [Cq.khead_advance, hall, Cq.length_left]
      omega
    refine .rest rfl ⟨?_, ?_, hq.once, ?_⟩ ?_
    · exact Nat.le_of_eq (hhead.trans hlen)
    · exact hq.examined.trans (congrArg List.range hhead.symm)
    · intro k hk
      exact hhead.symm ▸ hq.flagged k hk
    · exact hhead.trans hlen

theorem checkInv_step (o : CheckStep) (s : Checks) (h : CheckInv s) (hA : o.Admissible s)
    (hC : o.Positive s) : (o.step s).Safe CheckInv := by
  cases o with
  | post c =>
    cases h with
    | rest hw hq hc => exact .rest hw (Cq.inv_post hq c) hc
    | walking w n hw hq hat => exact .walking w n hw (Cq.inv_post hq c) (Cq.walkAt_post hat hq.le c)
  | request sqeId =>
    cases h with
    | rest hw hq hc => exact .rest hw ⟨hq.le, hq.examined, hq.once, hq.flagged⟩ hc
    | walking w n hw hq hat => exact absurd (hA.symm.trans hw) (Option.some_ne_none w).symm
  | begin_ =>
    cases h with
    | rest hw hq hc => exact .walking _ 0 rfl hq ⟨rfl, Nat.zero_le _, rfl⟩
    | walking w n hw hq hat => exact absurd (hA.symm.trans hw) (Option.some_ne_none w).symm
  | next =>
    cases h with
    | rest hw hq hc => exact absurd hw hA
    | walking w n hw hq hat =>
      have hgoal := checkInv_next hw hq hat hC
      simp only [CheckStep.step, hw]
      exact hgoal

/-- A check that ends after a result that is not positive leaves a completion it has examined. -/
theorem not_consumed_of_not_positive {o : CheckStep} {s : Checks} (h : CheckInv s)
    (hC : ¬ o.Positive s) : ¬ (o.step s).Safe Consumed := by
  cases o with
  | next =>
    simp only [CheckStep.Positive, not_forall] at hC
    obtain ⟨w, hw, hend, c, hmem, hc⟩ := hC
    cases h with
    | rest hnone hq hchecked => exact absurd (hnone.symm.trans hw) (Option.some_ne_none w).symm
    | walking w' n hw' hq hat =>
      obtain rfl : w' = w := Option.some.inj (hw'.symm.trans hw)
      obtain ⟨hlen, hi⟩ := Cq.walkAt_end hat hq.le hend
      have hlt : w'.i < s.cq.left.length := by
        rw [hi]
        refine Nat.lt_of_le_of_ne List.countP_le_length fun he => ?_
        exact hc (of_decide_eq_true (List.countP_eq_length.mp he c hmem))
      rw [Cq.length_left] at hlt
      simp only [CheckStep.step, hw', Cq.iterate, hend, Outcome.safe_ok]
      intro hconsumed
      have hremoved := hconsumed.removed rfl
      change s.cq.examined = List.range (s.cq.advance w').khead at hremoved
      have hlength := congrArg List.length hremoved
      rw [hq.examined, List.length_range, List.length_range, Cq.khead_advance] at hlength
      omega
  | _ => exact absurd trivial hC

/-- No completion was posted and no check has begun. -/
def noCompletions (doneFlag : ℕ → Bool) : Checks := ⟨⟨[], 0, doneFlag, [], [], 0⟩, none⟩

/-- In a run of posts, requests and checks every completion is consumed once if and only if each
check that ends has walked positive results only. -/
theorem consumed_iff_positive (doneFlag : ℕ → Bool) (steps : List CheckStep)
    (hA : Meets CheckStep.step CheckStep.Admissible steps (noCompletions doneFlag)) :
    Always CheckStep.step Consumed steps (noCompletions doneFlag) ↔
      Meets CheckStep.step CheckStep.Positive steps (noCompletions doneFlag) :=
  always_iff_meets (fun _ h => h.consumed) checkInv_step
    (fun _ _ h _ hC => not_consumed_of_not_positive h hC)
    (.rest rfl ⟨Nat.le_refl 0, rfl, List.nodup_nil, fun _ h => absurd h List.not_mem_nil⟩ rfl) hA

/-- Two completions with data are consumed, one of them during the walk of the first check. -/
theorem consumed_two :
    Always CheckStep.step Consumed
      [.request 0, .request 1, .post ⟨0, 512⟩, .begin_, .next, .post ⟨1, 512⟩, .next, .next, .begin_, .next]
      (noCompletions fun _ => false) := by
  refine (consumed_iff_positive _ _ ?_).mpr ?_
  · exact ⟨rfl, rfl, trivial, rfl, Option.some_ne_none _, trivial, Option.some_ne_none _,
      Option.some_ne_none _, rfl, Option.some_ne_none _, trivial⟩
  · exact ⟨trivial, trivial, trivial, trivial, fun _ _ _ => by decide, trivial,
      fun _ _ _ => by decide, fun _ _ _ => by decide, trivial, fun _ _ _ => by decide, trivial⟩

/-- The result of the first request is 0: a read at the end of its file. -/
def emptyReadRun : List CheckStep :=
  [.request 0, .request 1, .post ⟨0, 0⟩, .post ⟨1, 5⟩, .begin_, .next, .next, .next]

/-- The check removes the first completion, which has set no flag, and leaves the second one. -/
theorem empty_read_not_consumed :
    Meets CheckStep.step CheckStep.Admissible emptyReadRun (noCompletions fun _ => false) ∧
      ¬ Always CheckStep.step Consumed emptyReadRun (noCompletions fun _ => false) := by
  refine ⟨⟨rfl, rfl, trivial, trivial, rfl, Option.some_ne_none _, Option.some_ne_none _,
    Option.some_ne_none _, trivial⟩, ?_⟩
  rintro ⟨-, -, -, -, -, -, -, -, h⟩
  exact absurd (h.removed rfl) (by decide)

end Pthabt.IoUring
