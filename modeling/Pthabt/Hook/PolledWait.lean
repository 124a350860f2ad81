import Mathlib.Data.Finset.Card
import Mathlib.Algebra.Group.Int.Defs
import Mathlib.Algebra.Group.Nat.Defs
import Pthabt.Lib.Polling

/-! `pselect6` and `epoll_pwait2` in `hook_function` (`hook.c`): loops of polls without waiting, with
a yield between them, until something is ready or the deadline is seen to pass. What the kernel
and the clock do in each round is given; a call is compared with the one that blocks. The loop for
`pselect6` passes on the sets that its last poll has cleared, and the one for `epoll_pwait2` keeps
its deadline in the caller's timespec and goes on after an error. -/

namespace Pthabt.Hook

open Lib Polling

/-! ### Time -/

/-- `struct timespec`, two fields of type `long`. -/
structure Timespec where
  sec : ℕ
  nsec : ℕ
  sec_lt : sec < 2 ^ 63
  nsec_lt : nsec < 2 ^ 63

namespace Timespec

def nanos (t : Timespec) : ℕ := t.sec * 10 ^ 9 + t.nsec

/-- The sums of the fields, unless one overflows. -/
def add (t t' : Timespec) : Option Timespec :=
  if h : t.sec + t'.sec < 2 ^ 63 ∧ t.nsec + t'.nsec < 2 ^ 63 then
    some ⟨t.sec + t'.sec, t.nsec + t'.nsec, h.1, h.2⟩
  else none

/-- `diff_nsec > 0`. The code takes the difference as a `double`, which has the sign of the exact one
while the nanoseconds stay below `2 ^ 53`. -/
def Before (t now : Timespec) : Prop :=
  0 < ((now.sec : ℤ) - t.sec) * 10 ^ 9 + ((now.nsec : ℤ) - t.nsec)

instance (t now : Timespec) : Decidable (t.Before now) := inferInstanceAs (Decidable (_ < _))

theorem before_iff (t now : Timespec) : t.Before now ↔ t.nanos < now.nanos := by
  unfold Before nanos
  omega

theorem nanos_add {t t' u : Timespec} (h : t.add t' = some u) : u.nanos = t.nanos + t'.nanos := by
  unfold add at h
  split_ifs at h
  obtain rfl := Option.some.inj h
  simp only [nanos]
  omega

end Timespec

/-- There is a deadline, and it is seen to have passed. -/
def Seen : Option Timespec → Timespec → Prop
  | none, _ => False
  | some ts, now => ts.Before now

instance : ∀ (ts : Option Timespec) (now : Timespec), Decidable (Seen ts now)
  | none, _ => inferInstanceAs (Decidable False)
  | some ts, now => inferInstanceAs (Decidable (ts.Before now))

/-- A call that began at `start` has waited longer than its timeout. -/
def Passed (timeout : Option Timespec) (start now : Timespec) : Prop :=
  match timeout with
  | none => False
  | some t => start.nanos + t.nanos < now.nanos

instance (timeout : Option Timespec) (start now : Timespec) : Decidable (Passed timeout start now) :=
  match timeout with
  | none => inferInstanceAs (Decidable False)
  | some _ => inferInstanceAs (Decidable (_ < _))

/-- The deadline is the sum of start and timeout. -/
theorem seen_iff_passed {start t ts : Timespec} (h : ts.nanos = start.nanos + t.nanos)
    (now : Timespec) : Seen (some ts) now ↔ Passed (some t) start now := by
  show ts.Before now ↔ start.nanos + t.nanos < now.nanos
  rw [Timespec.before_iff, h]

/-! ### `pselect6` -/

inductive FdKind where
  | read
  | write
  | except
  deriving DecidableEq

/-- The three `fd_set`s. -/
abbrev FdSets := Finset (FdKind × ℕ)

/-- For each round the reading of the clock, the descriptors that are ready, and the error of the
kernel, which may depend on what it is asked. -/
structure Schedule where
  clock : ℕ → Timespec
  ready : ℕ → FdSets
  error : ℕ → FdSets → Option ℤ
  error_neg : ∀ k asked e, error k asked = some e → e < 0

/-- The kernel's `pselect6` without waiting. It overwrites the sets with those that are ready. -/
def Schedule.poll (w : Schedule) (k : ℕ) (asked : FdSets) : ℤ × FdSets :=
  match w.error k asked with
  | some e => (e, asked)
  | none => ((asked ∩ w.ready k).card, asked ∩ w.ready k)

/-- The deadline, from the timeout that is read without a test. -/
def selectStart (timeout : Option Timespec) (start : Timespec) : Option Timespec :=
  timeout.bind fun ats => start.add ats

/-- An iteration of the loop. -/
def selectRound (w : Schedule) (ts : Option Timespec) (k : ℕ) (asked : FdSets) : ℤ ⊕ FdSets :=
  if Seen ts (w.clock k) then .inl 0
  else if (w.poll k asked).1 ≠ 0 then .inl (w.poll k asked).1
  else .inr (w.poll k asked).2

/-- What ends a blocking call in round `k`. -/
def selectBlocks (w : Schedule) (timeout : Option Timespec) (start : Timespec) (requested : FdSets)
    (k : ℕ) : Option ℤ :=
  if Passed timeout start (w.clock k) then some 0
  else if (w.poll k requested).1 ≠ 0 then some (w.poll k requested).1
  else none

/-- The call is defined, and returns when and what the blocking call returns. -/
def SelectAsBlocking (w : Schedule) (timeout : Option Timespec) (start : Timespec)
    (requested : FdSets) : Prop :=
  ∃ ts, selectStart timeout start = some ts ∧
    ∀ n r, Returns (selectRound w (timeout.map fun _ => ts)) requested n r ↔
      First (selectBlocks w timeout start requested) n r

section Select

variable {w : Schedule} {ts : Option Timespec} {k : ℕ}

theorem poll_error {asked : FdSets} {e : ℤ} (h : w.error k asked = some e) :
    w.poll k asked = (e, asked) := by simp only [Schedule.poll, h]

theorem poll_ok {asked : FdSets} (h : w.error k asked = none) :
    w.poll k asked = (((asked ∩ w.ready k).card : ℤ), asked ∩ w.ready k) := by
  simp only [Schedule.poll, h]

/-- A poll that finds nothing clears the sets. -/
theorem poll_zero {asked : FdSets} (h : (w.poll k asked).1 = 0) : (w.poll k asked).2 = ∅ := by
  cases he : w.error k asked with
  | some e =>
    have hneg := w.error_neg k asked e he
    rw [poll_error he] at h
    change e = 0 at h
    omega
  | none =>
    rw [poll_ok he] at h ⊢
    exact Finset.card_eq_zero.mp (Int.ofNat_eq_zero.mp h)

/-- After the first round the loop asks for nothing. -/
theorem selectRound_clears {asked asked' : FdSets} (h : selectRound w ts k asked = .inr asked') :
    asked' = ∅ := by
  unfold selectRound at h
  split_ifs at h with hseen hret
  rw [← Sum.inr.inj h]
  exact poll_zero (not_not.mp hret)

theorem reaches_empty {requested asked : FdSets}
    (h : Reaches (selectRound w ts) requested k asked) (hk : 0 < k) : asked = ∅ := by
  cases h with
  | zero => exact absurd hk (Nat.lt_irrefl 0)
  | succ _ hround => exact selectRound_clears hround

/-- The kernel answers for no descriptors what it would answer for the requested ones. -/
theorem poll_empty_eq_iff (requested : FdSets) :
    (w.poll k ∅).1 = (w.poll k requested).1 ↔ w.error k ∅ = w.error k requested ∧
      (w.error k requested = none → requested ∩ w.ready k = ∅) := by
  cases he : w.error k ∅ with
  | some e =>
    have hneg := w.error_neg k ∅ e he
    rw [poll_error he]
    cases hr : w.error k requested with
    | some e' => simp [poll_error hr]
    | none =>
      rw [poll_ok hr]
      simp only [reduceCtorEq, false_and, iff_false]
      omega
  | none =>
    rw [poll_ok he, Finset.empty_inter, Finset.card_empty]
    cases hr : w.error k requested with
    | some e' =>
      have hneg := w.error_neg k requested e' hr
      rw [poll_error hr]
      simp only [reduceCtorEq, false_and, iff_false]
      change ¬ (0 : ℤ) = e'
      omega
    | none =>
      have hcard : ((0 : ℕ) : ℤ) = ((requested ∩ w.ready k).card : ℤ) ↔
          requested ∩ w.ready k = ∅ := by
        rw [Int.ofNat_inj, eq_comm, Finset.card_eq_zero]
      rw [poll_ok hr]
      exact hcard.trans (by simp)

/-- Two polls end a round alike if and only if they have the same result. -/
theorem ends_eq_iff (x y : ℤ) :
    (if x ≠ 0 then some x else none) = (if y ≠ 0 then some y else none) ↔ x = y := by
  split_ifs <;> simp <;> omega

theorem answer_selectRound (w : Schedule) (ts : Option Timespec) (k : ℕ) (asked : FdSets) :
    answer (selectRound w ts k asked) = if Seen ts (w.clock k) then some 0
      else if (w.poll k asked).1 ≠ 0 then some (w.poll k asked).1 else none := by
  unfold selectRound
  split_ifs <;> rfl

/-- The loop follows the blocking call if and only if every later poll is answered as if it were for
the requested descriptors. -/
theorem select_follows_iff {timeout : Option Timespec} {start : Timespec} (requested : FdSets)
    (hts : ∀ now, Seen ts now ↔ Passed timeout start now) :
    Follows (selectRound w ts) (selectBlocks w timeout start requested) requested ↔
      ∀ k, 0 < k → (∀ j < k, selectBlocks w timeout start requested j = none) →
        ¬ Passed timeout start (w.clock k) → (w.poll k ∅).1 = (w.poll k requested).1 := by
  have hround : ∀ k asked, answer (selectRound w ts k asked) =
      selectBlocks w timeout start requested k ↔
      (¬ Passed timeout start (w.clock k) → (w.poll k asked).1 = (w.poll k requested).1) := by
    intro k asked
    rw [answer_selectRound, selectBlocks]
    by_cases hpassed : Passed timeout start (w.clock k)
    · simp [hts, hpassed]
    · rw [if_neg (fun h => hpassed ((hts _).mp h)), if_neg hpassed, ends_eq_iff]
      simp [hpassed]
  constructor
  · intro h k hk hnone
    obtain ⟨asked, hreach⟩ := h.exists_reaches k hnone
    obtain rfl := reaches_empty hreach hk
    exact (hround k ∅).mp (h k ∅ hreach hnone)
  · intro h k asked hreach hnone
    rw [hround]
    rcases Nat.eq_zero_or_pos k with rfl | hk
    · cases hreach
      exact fun _ => rfl
    · obtain rfl := reaches_empty hreach hk
      exact h k hk hnone

end Select

/-- `pselect6` is as the blocking call if and only if there is a timeout whose deadline does not
overflow, and at every later poll before the blocking call returns the kernel fails for the empty
sets as for the requested ones and no requested descriptor is ready. -/
theorem select_as_blocking_iff (w : Schedule) (timeout : Option Timespec) (start : Timespec)
    (requested : FdSets) : SelectAsBlocking w timeout start requested ↔
    (∃ t ts, timeout = some t ∧ start.add t = some ts) ∧
      ∀ k, 0 < k → (∀ j < k, selectBlocks w timeout start requested j = none) →
        ¬ Passed timeout start (w.clock k) → w.error k ∅ = w.error k requested ∧
          (w.error k requested = none → requested ∩ w.ready k = ∅) := by
  simp only [← poll_empty_eq_iff]
  cases timeout with
  | none =>
    constructor
    · rintro ⟨ts, hts, -⟩
      cases hts
    · rintro ⟨⟨t, ts, ht, -⟩, -⟩
      cases ht
  | some t =>
    have hfollows : ∀ ts, start.add t = some ts →
        ((∀ n r, Returns (selectRound w (some ts)) requested n r ↔
          First (selectBlocks w (some t) start requested) n r) ↔ _) := fun ts hts =>
      (returns_iff_first_iff _ _ _).trans
        (select_follows_iff requested (seen_iff_passed (Timespec.nanos_add hts)))
    constructor
    · rintro ⟨ts, hts, h⟩
      exact ⟨⟨t, ts, rfl, hts⟩, (hfollows ts hts).mp h⟩
    · rintro ⟨⟨t', ts, ht, hts⟩, h⟩
      obtain rfl := Option.some.inj ht
      exact ⟨ts, hts, (hfollows ts hts).mpr h⟩

section Examples

def seconds (n : ℕ) (h : n < 2 ^ 63) : Timespec := ⟨n, 0, h, by decide⟩

/-- Descriptor 3 becomes readable before the second poll, and the clock stands still. -/
def secondPoll : Schedule where
  clock := fun _ => seconds 0 (by decide)
  ready := fun k => if k = 0 then ∅ else {(.read, 3)}
  error := fun _ _ => none
  error_neg := nofun

/-- The blocking call returns in the second round; the loop has cleared the sets and goes on for ever. -/
theorem second_poll_not_as_blocking :
    ¬ SelectAsBlocking secondPoll (some (seconds 10 (by decide))) (seconds 0 (by decide))
      {(.read, 3)} ∧
    First (selectBlocks secondPoll (some (seconds 10 (by decide))) (seconds 0 (by decide))
      {(.read, 3)}) 1 1 ∧
    (∀ k, selectRound secondPoll (some (seconds 10 (by decide))) (k + 1) ∅ = .inr ∅) ∧
    ¬ SelectAsBlocking secondPoll none (seconds 0 (by decide)) {(.read, 3)} := by
  have hfirst : First (selectBlocks secondPoll (some (seconds 10 (by decide))) (seconds 0 (by decide))
      {(.read, 3)}) 1 1 := by
    refine ⟨by decide, fun j hj => ?_⟩
    obtain rfl : j = 0 := by omega
    decide
  refine ⟨fun h => ?_, hfirst, fun k => ?_, fun h => ?_⟩
  · have hlater := ((select_as_blocking_iff _ _ _ _).mp h).2 1 Nat.one_pos hfirst.2 (by decide)
    exact absurd (hlater.2 rfl) (by decide)
  · simp [selectRound, Schedule.poll, secondPoll, Seen, Timespec.Before, seconds]
  · obtain ⟨⟨t, ts, ht, -⟩, -⟩ := (select_as_blocking_iff _ _ _ _).mp h
    cases ht

end Examples

/-! ### `epoll_pwait2` -/

/-- For each round the result of the kernel's poll without waiting, and the reading of the clock after
it. -/
structure EpollSchedule where
  result : ℕ → ℤ
  clock : ℕ → Timespec

/-- The statements before the loop: what the caller's timespec holds after them. -/
def epollStart (timeout : Option Timespec) (start : Timespec) : Option (Option Timespec) :=
  match timeout with
  | none => some none
  | some ts => (ts.add start).map some

/-- An iteration of the loop. -/
def epollRound (w : EpollSchedule) (ts : Option Timespec) (k : ℕ) (_ : Unit) : ℤ ⊕ Unit :=
  if 0 < w.result k then .inl (w.result k)
  else if Seen ts (w.clock k) then .inl 0
  else .inr ()

/-- What ends a blocking call in round `k`. -/
def epollBlocks (w : EpollSchedule) (timeout : Option Timespec) (start : Timespec) (k : ℕ) : Option ℤ :=
  if w.result k ≠ 0 then some (w.result k)
  else if Passed timeout start (w.clock k) then some 0
  else none

/-- The call is defined, returns when and what the blocking call returns, and leaves the caller's
timespec. -/
def EpollAsBlocking (w : EpollSchedule) (timeout : Option Timespec) (start : Timespec) : Prop :=
  ∃ ts, epollStart timeout start = some ts ∧ ts = timeout ∧
    ∀ n r, Returns (epollRound w ts) () n r ↔ First (epollBlocks w timeout start) n r

section Epoll

variable {w : EpollSchedule} {timeout ts : Option Timespec} {start : Timespec}

/-- A timespec is left as it was by adding zero only. -/
theorem add_eq_self_iff (t start : Timespec) : t.add start = some t ↔ start.sec = 0 ∧ start.nsec = 0 := by
  have hsec := t.sec_lt
  have hnsec := t.nsec_lt
  constructor
  · intro h
    unfold Timespec.add at h
    split_ifs at h
    have heq := Option.some.inj h
    have h1 := congrArg Timespec.sec heq
    have h2 := congrArg Timespec.nsec heq
    simpa using And.intro h1 h2
  · rintro ⟨h1, h2⟩
    have hfits : t.sec + start.sec < 2 ^ 63 ∧ t.nsec + start.nsec < 2 ^ 63 := by omega
    rw [Timespec.add, dif_pos hfits]
    simp only [h1, h2, Nat.add_zero]

theorem epollStart_eq_iff (timeout : Option Timespec) (start : Timespec) :
    epollStart timeout start = some timeout ↔
      ∀ t, timeout = some t → start.sec = 0 ∧ start.nsec = 0 := by
  cases timeout with
  | none => simp [epollStart]
  | some t =>
    rw [← add_eq_self_iff t start]
    simp [epollStart, add_eq_self_iff]

/-- A deadline in the caller's timespec is that of the call. -/
theorem seen_of_start (h : epollStart timeout start = some ts) (now : Timespec) :
    Seen ts now ↔ Passed timeout start now := by
  cases timeout with
  | none =>
    obtain rfl := Option.some.inj h
    exact Iff.rfl
  | some t =>
    obtain ⟨u, hu, rfl⟩ := Option.map_eq_some_iff.mp h
    exact seen_iff_passed (by rw [Timespec.nanos_add hu, Nat.add_comm]) now

/-- The loop follows the blocking call if and only if no poll that the blocking call makes fails. -/
theorem epoll_follows_iff (hts : ∀ now, Seen ts now ↔ Passed timeout start now) :
    Follows (epollRound w ts) (epollBlocks w timeout start) () ↔
      ∀ k, (∀ j < k, epollBlocks w timeout start j = none) → 0 ≤ w.result k := by
  have hround : ∀ k, answer (epollRound w ts k ()) = epollBlocks w timeout start k ↔
      0 ≤ w.result k := by
    intro k
    unfold epollRound epollBlocks
    rcases lt_trichotomy (w.result k) 0 with h | h | h
    · have hne : w.result k ≠ 0 := by omega
      rw [if_neg (by omega), if_pos hne]
      split_ifs
      · simp
        omega
      · simp
        omega
    · simp [h, hts]
      split_ifs <;> rfl
    · have hne : w.result k ≠ 0 := by omega
      simp [h, hne]
      omega
  constructor
  · intro h k hnone
    obtain ⟨⟨⟩, hreach⟩ := h.exists_reaches k hnone
    exact (hround k).mp (h k () hreach hnone)
  · intro h k s hreach hnone
    exact (hround k).mpr (h k hnone)

end Epoll

/-- `epoll_pwait2` is as the blocking call if and only if it has no timeout or begins at time zero, and
none of the polls up to the return of the blocking call fails. -/
theorem epoll_as_blocking_iff (w : EpollSchedule) (timeout : Option Timespec) (start : Timespec) :
    EpollAsBlocking w timeout start ↔
      (∀ t, timeout = some t → start.sec = 0 ∧ start.nsec = 0) ∧
      ∀ k, (∀ j < k, epollBlocks w timeout start j = none) → 0 ≤ w.result k := by
  rw [← epollStart_eq_iff]
  constructor
  · rintro ⟨ts, hstart, rfl, h⟩
    exact ⟨hstart, (epoll_follows_iff (seen_of_start hstart)).mp ((returns_iff_first_iff _ _ _).mp h)⟩
  · rintro ⟨hstart, h⟩
    exact ⟨timeout, hstart, rfl,
      (returns_iff_first_iff _ _ _).mpr ((epoll_follows_iff (seen_of_start hstart)).mpr h)⟩

/-- With no timeout an error of every poll keeps the loop going; and a timeout of one second at time
five becomes six in the caller's timespec. -/
theorem failing_epoll_not_as_blocking :
    ¬ EpollAsBlocking ⟨fun _ => -4, fun _ => seconds 0 (by decide)⟩ none (seconds 0 (by decide)) ∧
    (∀ k, epollRound ⟨fun _ => -4, fun _ => seconds 0 (by decide)⟩ none k () = .inr ()) ∧
    ¬ EpollAsBlocking ⟨fun _ => 1, fun _ => seconds 5 (by decide)⟩ (some (seconds 1 (by decide)))
      (seconds 5 (by decide)) ∧
    epollStart (some (seconds 1 (by decide))) (seconds 5 (by decide)) =
      some (some (seconds 6 (by decide))) := by
  refine ⟨fun h => ?_, fun k => ?_, fun h => ?_, rfl⟩
  · have hzero := ((epoll_as_blocking_iff _ _ _).mp h).2 0 fun j hj => absurd hj (Nat.not_lt_zero j)
    exact absurd hzero (by decide)
  · rfl
  · have hstart := ((epoll_as_blocking_iff _ _ _).mp h).1 _ rfl
    exact absurd hstart.1 (by decide)

end Pthabt.Hook
