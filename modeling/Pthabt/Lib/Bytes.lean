import Mathlib.Data.Nat.Basic
import Mathlib.Tactic.SplitIfs

/-! Copies between memories. A memory is a function of its addresses; a copy of `n` cells
replaces one range. Two ranges agree when they hold the same cells in the same order. -/

namespace Pthabt.Lib.Bytes

variable {α : Type*}

/-- `n` cells of `src` from `s` on replace those of `dst` from `d` on. -/
def blit (dst src : ℕ → α) (d s n : ℕ) : ℕ → α := fun a =>
  if d ≤ a ∧ a < d + n then src (s + (a - d)) else dst a

/-- The ranges of `n` cells from `d` on and of `m` cells from `e` on do not meet. -/
def Apart (d n e m : ℕ) : Prop := d + n ≤ e ∨ e + m ≤ d

/-- The `n` cells of `f` from `d` on are those of `g` from `s` on. -/
def Agree (f : ℕ → α) (d : ℕ) (g : ℕ → α) (s n : ℕ) : Prop := ∀ k < n, f (d + k) = g (s + k)

theorem Apart.symm {d n e m : ℕ} (h : Apart d n e m) : Apart e m d n := Or.symm h

theorem Apart.mono {d n e m n' m' : ℕ} (h : Apart d n e m) (hn : n' ≤ n) (hm : m' ≤ m) :
    Apart d n' e m' := by
  unfold Apart at h ⊢
  omega

theorem blit_at (dst src : ℕ → α) {d s n k : ℕ} (h : k < n) :
    blit dst src d s n (d + k) = src (s + k) := by
  have hin : d ≤ d + k ∧ d + k < d + n := by omega
  rw [blit, if_pos hin, Nat.add_sub_cancel_left]

theorem blit_outside (dst src : ℕ → α) {d s n a : ℕ} (h : a < d ∨ d + n ≤ a) :
    blit dst src d s n a = dst a := by
  have hout : ¬ (d ≤ a ∧ a < d + n) := by omega
  rw [blit, if_neg hout]

@[simp] theorem blit_zero (dst src : ℕ → α) (d s : ℕ) : blit dst src d s 0 = dst := by
  funext a
  exact blit_outside dst src (by omega)

/-- Two copies of adjacent ranges are one. -/
theorem blit_blit (dst src : ℕ → α) (d s n m : ℕ) :
    blit (blit dst src d s n) src (d + n) (s + n) m = blit dst src d s (n + m) := by
  funext a
  by_cases h : d ≤ a ∧ a < d + n + m
  · obtain ⟨k, rfl⟩ := Nat.exists_eq_add_of_le h.1
    rw [blit_at dst src (by omega : k < n + m)]
    by_cases hk : k < n
    · rw [blit_outside _ _ (by omega), blit_at dst src hk]
    · obtain ⟨l, rfl⟩ := Nat.exists_eq_add_of_le (Nat.le_of_not_lt hk)
      rw [← Nat.add_assoc, blit_at _ _ (by omega), Nat.add_assoc]
  · rw [blit_outside _ _ (by omega), blit_outside _ _ (by omega), blit_outside _ _ (by omega)]

theorem blit_agree (dst src : ℕ → α) (d s n : ℕ) : Agree (blit dst src d s n) d src s n :=
  fun _ hk => blit_at dst src hk

theorem agree_refl (f : ℕ → α) (d n : ℕ) : Agree f d f d n := fun _ _ => rfl

theorem Agree.symm {f g : ℕ → α} {d s n : ℕ} (h : Agree f d g s n) : Agree g s f d n :=
  fun k hk => (h k hk).symm

theorem Agree.trans {f g l : ℕ → α} {d s t n : ℕ} (h : Agree f d g s n) (h' : Agree g s l t n) :
    Agree f d l t n := fun k hk => (h k hk).trans (h' k hk)

theorem Agree.mono {f g : ℕ → α} {d s n m : ℕ} (h : Agree f d g s n) (hm : m ≤ n) :
    Agree f d g s m := fun k hk => h k (by omega)

/-- A copy to a range apart leaves a range as it was. -/
theorem agree_blit (f src : ℕ → α) {d n e s m : ℕ} (h : Apart d n e m) :
    Agree (blit f src e s m) d f d n := fun k hk => by
  unfold Apart at h
  exact blit_outside f src (by omega)

theorem Agree.blit_left {f g : ℕ → α} {d s n : ℕ} (h : Agree f d g s n) (src : ℕ → α)
    {e t m : ℕ} (ha : Apart d n e m) : Agree (blit f src e t m) d g s n :=
  (agree_blit f src ha).trans h

theorem Agree.blit_right {f g : ℕ → α} {d s n : ℕ} (h : Agree f d g s n) (src : ℕ → α)
    {e t m : ℕ} (ha : Apart s n e m) : Agree f d (blit g src e t m) s n :=
  h.trans (agree_blit g src ha).symm

end Pthabt.Lib.Bytes
