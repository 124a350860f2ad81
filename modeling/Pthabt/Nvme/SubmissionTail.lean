import Pthabt.Lib.Cyclic
import Pthabt.Lib.Run
import Mathlib.Data.Nat.ModEq

/-! The submission queue of a `QP` and the head of the drive. `new_sqe` looks at the
`done_flag` of the slot it takes and not at the head, so it may take the last free slot; the
tail then equals the head, which the drive reads as an empty queue. Completions are
consumed in the order in which they were posted, as a list. -/

namespace Pthabt.Nvme

open Lib Run

/-- Where the host is: outside, at the test of `done_flag` in `new_sqe`, in `check_cq`, which goes
back to `new_sqe` or not, or between `new_sqe` and `sq_doorbell`. -/
inductive SqPc where
  | idle
  | newSqe
  | checkCq (back : Bool)
  | doorbell
  deriving DecidableEq

/-- A queue pair of `n_sqe` entries and its drive. `cq` are the identifiers of the completions that
were not consumed, `tdbl` is the tail doorbell, and of the `issued` commands the first
`rung` had their doorbell rung and the first `fetched` were fetched. -/
structure SqPair where
  doneFlag : ℕ → ℕ
  sqTail : ℕ
  pc : SqPc
  cq : List ℕ
  tdbl : ℕ
  head : ℕ
  issued : ℕ
  rung : ℕ
  fetched : ℕ
  completed : ℕ → Bool

namespace SqPair

/-- As the constructor of `QP` leaves it. -/
def new : SqPair := ⟨fun _ => 2, 0, .idle, [], 0, 0, 0, 0, 0, fun _ => false⟩

/-- The next step of the host. -/
def host (n : ℕ) (s : SqPair) : SqPair :=
  match s.pc with
  | .idle => s
  | .newSqe =>
    if s.doneFlag s.sqTail = 0 then { s with pc := .checkCq true }
    else
      { s with
        doneFlag := Function.update s.doneFlag s.sqTail 0
        sqTail := (s.sqTail + 1) % n
        pc := .doorbell
        issued := s.issued + 1 }
  | .checkCq back =>
    match s.cq with
    | [] => { s with pc := if back then .newSqe else .idle }
    | cid :: cq => { s with doneFlag := Function.update s.doneFlag cid 1, cq := cq }
  | .doorbell => { s with tdbl := s.sqTail, pc := .idle, rung := s.issued }

/-- The drive fetches the entry at its head, unless its head is at the doorbell. -/
def fetch (n : ℕ) (s : SqPair) : SqPair :=
  if s.head = s.tdbl then s else { s with head := (s.head + 1) % n, fetched := s.fetched + 1 }

/-- The drive completes command `k` with the `CID` of its entry. -/
def complete (n k : ℕ) (s : SqPair) : SqPair :=
  { s with cq := s.cq ++ [k % n % 2 ^ 16], completed := Function.update s.completed k true }

end SqPair

inductive SqStep where
  | newSqe
  | checkCq
  | host
  | fetch
  | complete (k : ℕ)

def SqStep.step (n : ℕ) : SqStep → SqPair → Outcome SqPair
  | .newSqe, s => .ok { s with pc := .newSqe }
  | .checkCq, s => .ok { s with pc := .checkCq false }
  | .host, s => .ok (s.host n)
  | .fetch, s => .ok (s.fetch n)
  | .complete k, s => .ok (s.complete n k)

/-- The host does one thing at a time; the drive completes what it fetched, once. -/
def SqStep.Admissible : SqStep → SqPair → Prop
  | .newSqe, s => s.pc = .idle
  | .checkCq, s => s.pc = .idle
  | .host, _ => True
  | .fetch, _ => True
  | .complete k, s => k < s.fetched ∧ s.completed k = false

/-- Fewer commands than slots wait to be fetched, and the tail equals the head only when none does. -/
structure TailApart (n : ℕ) (s : SqPair) : Prop where
  bound : s.rung - s.fetched ≤ n - 1
  empty : s.sqTail = s.head → s.rung = s.fetched

/-- `new_sqe` takes a slot only when the drive's head is not at the slot after it. -/
def SqStep.Spare (n : ℕ) : SqStep → SqPair → Prop
  | .host, s => s.pc = .newSqe → s.doneFlag s.sqTail ≠ 0 → (s.sqTail + 1) % n ≠ s.head
  | _, _ => True

/-- Invariant of such runs: the positions are counts modulo `n`. -/
structure SqInv (n : ℕ) (s : SqPair) : Prop where
  tail : s.sqTail = s.issued % n
  tdbl : s.tdbl = s.rung % n
  head : s.head = s.fetched % n
  fetched_le : s.fetched ≤ s.rung
  rung_eq : s.issued = s.rung + if s.pc = .doorbell then 1 else 0
  bound : s.issued ≤ s.fetched + (n - 1)

variable {n : ℕ}

/-- Counts that are less than a lap apart are equal when their positions are. -/
theorem eq_of_mod_eq {a b : ℕ} (hle : a ≤ b) (hlt : b < a + n) (h : b % n = a % n) : b = a := by
  have hdvd := (Nat.modEq_iff_dvd' hle).mp (Eq.symm h : a ≡ b [MOD n])
  have := Nat.eq_zero_of_dvd_of_lt hdvd (by omega)
  omega

theorem SqInv.apart {s : SqPair} (h : SqInv n s) (hn : 2 ≤ n) : TailApart n s := by
  have hb := h.bound
  have hf := h.fetched_le
  have hr : s.rung ≤ s.issued := by have := h.rung_eq; omega
  refine ⟨by omega, fun he => ?_⟩
  rw [h.tail, h.head] at he
  have := eq_of_mod_eq (hf.trans hr) (by omega) he
  omega

theorem SqInv.host {s : SqPair} (h : SqInv n s) (hn : 2 ≤ n) (hC : SqStep.Spare n .host s) :
    SqInv n (s.host n) := by
  have hrung := h.rung_eq
  unfold SqPair.host
  cases hpc : s.pc with
  | idle => exact h
  | newSqe =>
    simp only [hpc, reduceCtorEq, if_false, add_zero] at hrung
    by_cases hd : s.doneFlag s.sqTail = 0
    · rw [if_pos hd]
      exact { h with rung_eq := hrung }
    · rw [if_neg hd]
      have hne := hC hpc hd
      refine ⟨?_, h.tdbl, h.head, h.fetched_le, ?_, ?_⟩
      · rw [h.tail, Nat.mod_add_mod]
      · exact congrArg (· + 1) hrung
      · have hb := h.bound
        change s.issued + 1 ≤ s.fetched + (n - 1)
        by_contra hlt
        apply hne
        have he : s.issued + 1 = s.fetched + n := by omega
        rw [h.tail, h.head, Nat.mod_add_mod, he, Nat.add_mod_right]
  | checkCq back =>
    simp only [hpc, reduceCtorEq, if_false, add_zero] at hrung
    cases hcq : s.cq with
    | nil =>
      refine { h with rung_eq := ?_ }
      cases back <;> exact hrung
    | cons cid cq => exact { h with rung_eq := by simpa [hpc] using hrung }
  | doorbell =>
    have hle : s.fetched ≤ s.issued := by
      have := h.fetched_le
      omega
    exact ⟨h.tail, h.tail, h.head, hle, rfl, h.bound⟩

theorem SqInv.fetch {s : SqPair} (h : SqInv n s) : SqInv n (s.fetch n) := by
  unfold SqPair.fetch
  split_ifs with he
  · exact h
  · have hne : s.fetched ≠ s.rung := by
      intro hfr
      apply he
      rw [h.head, h.tdbl, hfr]
    have hf : s.fetched + 1 ≤ s.rung := by
      have := h.fetched_le
      omega
    have hb : s.issued ≤ s.fetched + 1 + (n - 1) := by
      have := h.bound
      omega
    exact ⟨h.tail, h.tdbl, by rw [h.head, Nat.mod_add_mod], hf, h.rung_eq, hb⟩

theorem sqInv_step (hn : 2 ≤ n) (o : SqStep) (s : SqPair) (h : SqInv n s) (hA : o.Admissible s)
    (hC : o.Spare n s) : (o.step n s).Safe (SqInv n) := by
  cases o with
  | newSqe =>
    have hrung := h.rung_eq
    have hpc : s.pc = .idle := hA
    rw [hpc] at hrung
    exact { h with rung_eq := hrung }
  | checkCq =>
    have hrung := h.rung_eq
    have hpc : s.pc = .idle := hA
    rw [hpc] at hrung
    exact { h with rung_eq := hrung }
  | host => exact h.host hn hC
  | fetch => exact h.fetch
  | complete k => exact { h with }

/-- Taking the slot before the head makes the tail equal to it over a queue that is not empty. -/
theorem caught_step (hn : 2 ≤ n) (o : SqStep) (s : SqPair) (h : SqInv n s) (_ : o.Admissible s)
    (hC : ¬ o.Spare n s) : ¬ (o.step n s).Safe (TailApart n) := by
  cases o with
  | host =>
    have hC : ¬ (s.pc = .newSqe → s.doneFlag s.sqTail ≠ 0 → (s.sqTail + 1) % n ≠ s.head) := hC
    push Not at hC
    obtain ⟨hpc, hd, he⟩ := hC
    have hstep : s.host n = { s with
        doneFlag := Function.update s.doneFlag s.sqTail 0
        sqTail := (s.sqTail + 1) % n
        pc := .doorbell
        issued := s.issued + 1 } := by
      simp only [SqPair.host, hpc, if_neg hd]
    rw [SqStep.step, Outcome.safe_ok, hstep]
    rintro ⟨-, hempty⟩
    have hfr : s.rung = s.fetched := hempty he
    have hrung := h.rung_eq
    rw [hpc, if_neg (by simp), hfr, add_zero] at hrung
    rw [h.tail, h.head, Nat.mod_add_mod, hrung] at he
    have := eq_of_mod_eq (Nat.le_succ s.fetched) (by omega) he
    omega
  | _ => exact absurd trivial hC

theorem new_sqInv : SqInv n .new := by
  refine ⟨?_, ?_, ?_, le_rfl, rfl, Nat.zero_le _⟩ <;> exact (Nat.zero_mod n).symm

/-- The tail never catches up with the head exactly in the runs in which no command takes the slot
before the head. -/
theorem apart_iff_spare (hn : 2 ≤ n) (steps : List SqStep)
    (hA : Meets (SqStep.step n) SqStep.Admissible steps .new) :
    Always (SqStep.step n) (TailApart n) steps .new ↔
      Meets (SqStep.step n) (SqStep.Spare n) steps .new :=
  always_iff_meets (fun _ h => h.apart hn) (sqInv_step hn) (caught_step hn) new_sqInv hA

/-- The theorem at a queue of two entries whose drive fetches each command at once. -/
theorem apart_two :
    Always (SqStep.step 2) (TailApart 2)
      [.newSqe, .host, .host, .fetch, .newSqe, .host, .host, .fetch] .new := by
  refine (apart_iff_spare le_rfl _ ?_).mpr ?_
  · exact ⟨rfl, trivial, trivial, trivial, rfl, trivial, trivial, trivial, trivial⟩
  · exact ⟨trivial, fun _ _ => by decide, (fun h => by cases h), trivial, trivial,
      fun _ _ => by decide, (fun h => by cases h), trivial, trivial⟩

/-- Two commands before the drive fetches one. -/
def fillRun : List SqStep := [.newSqe, .host, .host, .newSqe, .host, .host]

/-- After it the drive has two commands to fetch and sees an empty queue. -/
theorem fill_not_apart :
    Meets (SqStep.step 2) SqStep.Admissible fillRun .new ∧
      ¬ Always (SqStep.step 2) (TailApart 2) fillRun .new := by
  refine ⟨⟨rfl, trivial, trivial, rfl, trivial, trivial, trivial⟩, ?_⟩
  rintro ⟨-, -, -, -, -, -, h⟩
  have hbound : (2 : ℕ) - 0 ≤ 2 - 1 := h.bound
  omega

end Pthabt.Nvme
