import Mathlib.Data.List.Infix
import Mathlib.Data.UInt

/-! Strings of the C library. A string is the bytes before its terminating NUL, so
none of them is zero. -/

namespace Pthabt.Lib

/-- The bytes before the terminator. -/
structure CString where
  bytes : List UInt8
  nul_free : ∀ b ∈ bytes, b ≠ 0
  deriving DecidableEq

namespace CString

def empty : CString := ⟨[], by simp⟩

def strlen (s : CString) : ℕ := s.bytes.length

/-- `s` is an initial segment of `t`. -/
def IsPrefix (s t : CString) : Prop := s.bytes <+: t.bytes

instance (s t : CString) : Decidable (s.IsPrefix t) :=
  inferInstanceAs (Decidable (s.bytes <+: t.bytes))

/-- At most `n` byte comparisons, stopping at a difference or after a NUL. -/
def strncmp : List UInt8 → List UInt8 → ℕ → ℤ
  | _, _, 0 => 0
  | s, t, n + 1 =>
    if s.headD 0 ≠ t.headD 0 then (s.headD 0).toNat - (t.headD 0).toNat
    else if s.headD 0 = 0 then 0
    else strncmp s.tail t.tail n

/-- The number of bytes of the second string that `strncmp` compares. -/
def strncmpRead : List UInt8 → List UInt8 → ℕ → ℕ
  | _, _, 0 => 0
  | s, t, n + 1 =>
    if s.headD 0 ≠ t.headD 0 then 1
    else if s.headD 0 = 0 then 1
    else strncmpRead s.tail t.tail n + 1

/-- The `n` bytes that `strncpy` writes: those of the string, and NULs after its end. -/
def strncpy (s : List UInt8) (n : ℕ) : List UInt8 := s.take n ++ List.replicate (n - s.length) 0

@[simp] theorem length_strncpy (s : List UInt8) (n : ℕ) : (strncpy s n).length = n := by
  simp only [strncpy, List.length_append, List.length_take, List.length_replicate]
  omega

theorem getD_zero (t : List UInt8) : t.getD 0 0 = t.headD 0 := by
  cases t <;> rfl

theorem getD_succ (t : List UInt8) (k : ℕ) : t.getD (k + 1) 0 = t.tail.getD k 0 := by
  cases t <;> rfl

/-- A comparison ends at a NUL of the second string. -/
theorem strncmpRead_le {t : List UInt8} {e : ℕ} (h : t.getD e 0 = 0) (s : List UInt8) (n : ℕ) :
    strncmpRead s t n ≤ e + 1 := by
  induction n generalizing s t e with
  | zero => exact Nat.zero_le _
  | succ n ih =>
    rw [strncmpRead]
    split_ifs with hne hz
    · exact Nat.le_add_left 1 e
    · exact Nat.le_add_left 1 e
    · cases e with
      | zero =>
        rw [getD_zero] at h
        exact absurd ((not_not.mp hne).trans h) hz
      | succ e => exact Nat.succ_le_succ (ih (getD_succ t e ▸ h) s.tail)

/-- A comparison depends only on the bytes it reads. -/
theorem strncmp_congr {s t t' : List UInt8} {n : ℕ}
    (h : ∀ k < strncmpRead s t n, t.getD k 0 = t'.getD k 0) : strncmp s t n = strncmp s t' n := by
  induction n generalizing s t t' with
  | zero => rfl
  | succ n ih =>
    have hpos : 0 < strncmpRead s t (n + 1) := by
      rw [strncmpRead]
      split_ifs <;> omega
    have hhead : t.headD 0 = t'.headD 0 := by
      rw [← getD_zero, ← getD_zero]
      exact h 0 hpos
    rw [strncmp, strncmp, ← hhead]
    split_ifs with hne hz
    · rfl
    · rfl
    · apply ih
      intro k hk
      rw [← getD_succ, ← getD_succ]
      apply h
      rw [strncmpRead, if_neg hne, if_neg hz]
      exact Nat.succ_lt_succ hk

theorem toNat_sub_ne_zero {a b : UInt8} (h : a ≠ b) : (a.toNat : ℤ) - b.toNat ≠ 0 := by
  intro he
  exact h (UInt8.toNat_inj.mp (by omega))

/-- Comparing over the length of the first string tests for an initial segment. -/
theorem strncmp_bytes (s t : List UInt8) (hs : ∀ b ∈ s, b ≠ 0) (ht : ∀ b ∈ t, b ≠ 0) :
    strncmp s t s.length = 0 ↔ s <+: t := by
  induction s generalizing t with
  | nil => simp [strncmp]
  | cons a s ih =>
    have ha : a ≠ 0 := hs a (by simp)
    cases t with
    | nil =>
      simp only [List.length_cons, strncmp, List.headD_cons, List.headD_nil, ne_eq, ha,
        not_false_eq_true, ↓reduceIte, List.prefix_nil, reduceCtorEq, iff_false]
      exact toNat_sub_ne_zero ha
    | cons b t =>
      simp only [List.length_cons, strncmp, List.headD_cons, List.tail_cons, ha, ↓reduceIte,
        List.cons_prefix_cons]
      by_cases hab : a = b
      · simp only [hab, ne_eq, not_true_eq_false, ↓reduceIte, true_and]
        exact ih t (fun c hc => hs c (by simp [hc])) (fun c hc => ht c (by simp [hc]))
      · simp only [ne_eq, hab, not_false_eq_true, ↓reduceIte, false_and, iff_false]
        exact toNat_sub_ne_zero hab

theorem strncmp_eq_zero (s t : CString) :
    strncmp s.bytes t.bytes s.strlen = 0 ↔ s.IsPrefix t :=
  strncmp_bytes s.bytes t.bytes s.nul_free t.nul_free

theorem isPrefix_refl (s : CString) : s.IsPrefix s := List.prefix_rfl

/-- Two initial segments of one string are comparable. -/
theorem isPrefix_or_isPrefix {s t u : CString} (hs : s.IsPrefix u) (ht : t.IsPrefix u) :
    s.IsPrefix t ∨ t.IsPrefix s := List.prefix_or_prefix_of_prefix hs ht

theorem empty_isPrefix (s : CString) : empty.IsPrefix s := List.nil_prefix

theorem not_isPrefix_empty {s : CString} (h : s ≠ empty) : ¬ s.IsPrefix empty := by
  intro hp
  apply h
  cases s with
  | mk bytes nul_free =>
    have : bytes = [] := List.prefix_nil.mp hp
    subst this
    rfl

end CString

end Pthabt.Lib
