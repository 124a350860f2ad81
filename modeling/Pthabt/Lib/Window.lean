import Mathlib.Algebra.Group.Nat.Defs

/-! Memory seen from an address on. A change of what is seen there is a change of the memory, and
one that stays within the first `n` words keeps what is seen from an address `n` or more words
away. -/

namespace Pthabt.Lib

variable {α : Type*}

/-- The memory from `base` on. -/
def window (base : ℕ) (mem : ℕ → α) : ℕ → α := fun w => mem (base + w)

/-- The memory after a change from `base` on. -/
def inWindow (base : ℕ) (f : (ℕ → α) → ℕ → α) (mem : ℕ → α) : ℕ → α := fun a =>
  if base ≤ a then f (window base mem) (a - base) else mem a

/-- A change of the first `n` words at most. -/
def Within (n : ℕ) (f : (ℕ → α) → ℕ → α) : Prop := ∀ m w, n ≤ w → f m w = m w

theorem window_window (a b : ℕ) (mem : ℕ → α) : window b (window a mem) = window (a + b) mem := by
  funext w
  simp only [window, Nat.add_assoc]

theorem window_inWindow (base : ℕ) (f : (ℕ → α) → ℕ → α) (mem : ℕ → α) :
    window base (inWindow base f mem) = f (window base mem) := by
  funext w
  rw [window, inWindow, if_pos (Nat.le_add_right _ _), Nat.add_sub_cancel_left]

/-- A change further on in a window. -/
theorem inWindow_add (base d : ℕ) (f : (ℕ → α) → ℕ → α) (mem : ℕ → α) :
    inWindow (base + d) f mem = inWindow base (inWindow d f) mem := by
  funext a
  unfold inWindow
  by_cases hd : base + d ≤ a
  · have hb : base ≤ a := by omega
    have hdb : d ≤ a - base := by omega
    rw [if_pos hd, if_pos hb, if_pos hdb, window_window, Nat.sub_sub]
  · rw [if_neg hd]
    by_cases hb : base ≤ a
    · have hdb : ¬ d ≤ a - base := by omega
      rw [if_pos hb, if_neg hdb, window, Nat.add_sub_cancel' hb]
    · rw [if_neg hb]

theorem Within.inWindow {n : ℕ} {f : (ℕ → α) → ℕ → α} (h : Within n f) (d : ℕ) :
    Within (d + n) (inWindow d f) := by
  intro m w hw
  have hd : d ≤ w := by omega
  rw [Lib.inWindow, if_pos hd, h _ _ (by omega), window, Nat.add_sub_cancel' hd]

theorem Within.mono {n k : ℕ} {f : (ℕ → α) → ℕ → α} (h : Within n f) (hk : n ≤ k) : Within k f :=
  fun m w hw => h m w (Nat.le_trans hk hw)

/-- What is seen elsewhere stays. -/
theorem window_inWindow_of_apart {n base base' w : ℕ} {f : (ℕ → α) → ℕ → α} (h : Within n f)
    (mem : ℕ → α) (hw : w < n) (ha : base + n ≤ base' ∨ base' + n ≤ base) :
    window base' (inWindow base f mem) w = window base' mem w := by
  unfold window inWindow
  by_cases hb : base ≤ base' + w
  · rw [if_pos hb, h _ _ (by omega), window, Nat.add_sub_cancel' hb]
  · rw [if_neg hb]

end Pthabt.Lib
