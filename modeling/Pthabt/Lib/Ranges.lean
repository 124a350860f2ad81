import Mathlib.Data.List.Basic
import Mathlib.Data.List.Pairwise

/-! Ranges of numbers, each given by its start and its length, that follow one another. -/

namespace Pthabt.Lib

/-- The ranges lie end to end from `a` to `b`. -/
def Tiles : List (ℕ × ℕ) → ℕ → ℕ → Prop
  | [], a, b => a = b
  | r :: rs, a, b => r.1 = a ∧ Tiles rs (a + r.2) b

/-- The two ranges have no number in common. -/
def Separate (r q : ℕ × ℕ) : Prop := r.1 + r.2 ≤ q.1 ∨ q.1 + q.2 ≤ r.1

instance (r q : ℕ × ℕ) : Decidable (Separate r q) := instDecidableOr

/-- One of the ranges has the number `x`. -/
def Covers (rs : List (ℕ × ℕ)) (x : ℕ) : Prop := ∃ r ∈ rs, r.1 ≤ x ∧ x < r.1 + r.2

namespace Tiles

/-- One more range where the others end. -/
theorem snoc {rs : List (ℕ × ℕ)} {b : ℕ} (n : ℕ) :
    ∀ {a : ℕ}, Tiles rs a b → Tiles (rs ++ [(b, n)]) a (b + n) := by
  induction rs with
  | nil =>
    intro a h
    exact ⟨h.symm, congrArg (· + n) h⟩
  | cons r rs ih => exact fun h => ⟨h.1, ih h.2⟩

theorem le {rs : List (ℕ × ℕ)} {b : ℕ} : ∀ {a : ℕ}, Tiles rs a b → a ≤ b := by
  induction rs with
  | nil => exact fun h => Nat.le_of_eq h
  | cons r rs ih => exact fun h => Nat.le_trans (Nat.le_add_right _ _) (ih h.2)

theorem start_le {rs : List (ℕ × ℕ)} {b : ℕ} {q : ℕ × ℕ} :
    ∀ {a : ℕ}, Tiles rs a b → q ∈ rs → a ≤ q.1 := by
  induction rs with
  | nil => exact fun _ hq => absurd hq List.not_mem_nil
  | cons r rs ih =>
    intro a h hq
    rcases List.mem_cons.mp hq with rfl | hq
    · exact Nat.le_of_eq h.1.symm
    · exact Nat.le_trans (Nat.le_add_right _ _) (ih h.2 hq)

/-- Together they have the numbers from `a` to `b`. -/
theorem covers_iff {rs : List (ℕ × ℕ)} {b x : ℕ} :
    ∀ {a : ℕ}, Tiles rs a b → (Covers rs x ↔ a ≤ x ∧ x < b) := by
  unfold Covers
  induction rs with
  | nil =>
    rintro a rfl
    simp only [List.not_mem_nil, false_and, exists_false, false_iff]
    omega
  | cons r rs ih =>
    rintro a ⟨rfl, h⟩
    have hle := h.le
    simp only [List.mem_cons, exists_eq_or_imp, ih h]
    omega

/-- No two of them have a number in common. -/
theorem separate {rs : List (ℕ × ℕ)} {b : ℕ} : ∀ {a : ℕ}, Tiles rs a b → rs.Pairwise Separate := by
  induction rs with
  | nil => exact fun _ => List.Pairwise.nil
  | cons r rs ih =>
    rintro a ⟨rfl, h⟩
    exact List.Pairwise.cons (fun q hq => .inl (h.start_le hq)) (ih h)

end Tiles

end Pthabt.Lib
