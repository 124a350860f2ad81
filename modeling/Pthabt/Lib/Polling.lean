import Mathlib.Data.Nat.Basic

/-! Loops that poll. Each round looks at its number and the state that earlier rounds left; it
returns, or goes on in a new state. Such a loop is compared with a test of each round number
alone, whose first answer counts. -/

namespace Pthabt.Lib.Polling

variable {σ ρ : Type*}

/-- What a round returns, if it does. -/
def answer : ρ ⊕ σ → Option ρ
  | .inl r => some r
  | .inr _ => none

@[simp] theorem answer_inl (r : ρ) : answer (Sum.inl r : ρ ⊕ σ) = some r := rfl

@[simp] theorem answer_inr (s : σ) : answer (Sum.inr s : ρ ⊕ σ) = none := rfl

/-- The loop gets to round `k` in state `s`. -/
inductive Reaches (round : ℕ → σ → ρ ⊕ σ) (s₀ : σ) : ℕ → σ → Prop
  | zero : Reaches round s₀ 0 s₀
  | succ {k : ℕ} {s s' : σ} (h : Reaches round s₀ k s) (hs : round k s = .inr s') :
    Reaches round s₀ (k + 1) s'

/-- The loop returns `r` in round `n`. -/
def Returns (round : ℕ → σ → ρ ⊕ σ) (s₀ : σ) (n : ℕ) (r : ρ) : Prop :=
  ∃ s, Reaches round s₀ n s ∧ round n s = .inl r

/-- The first answer of `f` is `r`, in round `n`. -/
def First (f : ℕ → Option ρ) (n : ℕ) (r : ρ) : Prop := f n = some r ∧ ∀ j < n, f j = none

variable {round : ℕ → σ → ρ ⊕ σ} {f : ℕ → Option ρ} {s₀ : σ}

/-- A round is reached in one state only. -/
theorem reaches_unique {k : ℕ} {s t : σ} (h : Reaches round s₀ k s) (h' : Reaches round s₀ k t) :
    s = t := by
  induction h generalizing t with
  | zero =>
    cases h'
    rfl
  | succ _ hs ih =>
    cases h' with
    | succ h' hs' =>
      obtain rfl := ih h'
      exact Sum.inr.inj (hs.symm.trans hs')

/-- While `f` has no answer, the loop answers each round that it reaches like `f`. -/
def Follows (round : ℕ → σ → ρ ⊕ σ) (f : ℕ → Option ρ) (s₀ : σ) : Prop :=
  ∀ k s, Reaches round s₀ k s → (∀ j < k, f j = none) → answer (round k s) = f k

/-- The loop gets as far as `f` has no answer. -/
theorem Follows.exists_reaches (h : Follows round f s₀) (k : ℕ) (hk : ∀ j < k, f j = none) :
    ∃ s, Reaches round s₀ k s := by
  induction k with
  | zero => exact ⟨s₀, .zero⟩
  | succ k ih =>
    have hold : ∀ j < k, f j = none := fun j hj => hk j (Nat.lt_succ_of_lt hj)
    obtain ⟨s, hs⟩ := ih hold
    have hanswer := h k s hs hold
    rw [hk k (Nat.lt_succ_self k)] at hanswer
    cases hround : round k s with
    | inl r => simp [hround] at hanswer
    | inr s' => exact ⟨s', .succ hs hround⟩

theorem Follows.none_of_reaches (h : Follows round f s₀) {k : ℕ} {s : σ}
    (hs : Reaches round s₀ k s) : ∀ j < k, f j = none := by
  induction hs with
  | zero => exact fun j hj => absurd hj (Nat.not_lt_zero j)
  | @succ k s s' hk hround ih =>
    intro j hj
    rcases Nat.lt_succ_iff_lt_or_eq.mp hj with hj | rfl
    · exact ih j hj
    · have hanswer := h j s hk ih
      rw [hround] at hanswer
      exact hanswer.symm

/-- The loop returns what `f` answers first, in the same round, if and only if it follows `f`. -/
theorem returns_iff_first_iff (round : ℕ → σ → ρ ⊕ σ) (f : ℕ → Option ρ) (s₀ : σ) :
    (∀ n r, Returns round s₀ n r ↔ First f n r) ↔ Follows round f s₀ := by
  constructor
  · intro h k s hs hk
    cases hround : round k s with
    | inl r => exact ((h k r).mp ⟨s, hs, hround⟩).1.symm
    | inr s' =>
      rw [answer_inr]
      cases hf : f k with
      | none => rfl
      | some r =>
        obtain ⟨t, ht, hreturn⟩ := (h k r).mpr ⟨hf, hk⟩
        obtain rfl := reaches_unique hs ht
        rw [hround] at hreturn
        cases hreturn
  · intro h n r
    constructor
    · rintro ⟨s, hs, hround⟩
      have hnone := h.none_of_reaches hs
      refine ⟨?_, hnone⟩
      rw [← h n s hs hnone, hround, answer_inl]
    · rintro ⟨hf, hnone⟩
      obtain ⟨s, hs⟩ := h.exists_reaches n hnone
      refine ⟨s, hs, ?_⟩
      have hanswer := h n s hs hnone
      rw [hf] at hanswer
      cases hround : round n s with
      | inl r' =>
        rw [hround] at hanswer
        rw [Option.some.inj hanswer]
      | inr s' =>
        rw [hround] at hanswer
        cases hanswer

end Pthabt.Lib.Polling
