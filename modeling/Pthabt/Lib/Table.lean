import Mathlib.Algebra.BigOperators.Group.Finset.Basic
import Mathlib.Algebra.Order.BigOperators.Group.Finset
import Mathlib.Algebra.Order.Group.Multiset
import Mathlib.Data.Multiset.Filter

/-! Tables of finitely many cells, each weighed in a commutative monoid, and what one
changed cell does to the total weight. -/

namespace Pthabt.Lib

open Finset

variable {α M : Type*} [AddCommMonoid M]

/-- The total weight of the first `n` cells. -/
def tableSum (v : α → M) (n : ℕ) (t : ℕ → α) : M := ∑ j ∈ range n, v (t j)

/-- A total splits into one cell and the others. -/
theorem tableSum_split (v : α → M) {n j : ℕ} (hj : j < n) (t : ℕ → α) :
    tableSum v n t = v (t j) + ∑ k ∈ (range n).erase j, v (t k) :=
  (add_sum_erase (range n) (fun k => v (t k)) (mem_range.mpr hj)).symm

theorem tableSum_update (v : α → M) {n j : ℕ} (hj : j < n) (t : ℕ → α) (x : α) :
    tableSum v n (Function.update t j x) + v (t j) = tableSum v n t + v x := by
  rw [tableSum_split v hj, tableSum_split v hj t, Function.update_self]
  have hrest : ∑ k ∈ (range n).erase j, v (Function.update t j x k) =
      ∑ k ∈ (range n).erase j, v (t k) := by
    refine sum_congr rfl fun k hk => ?_
    rw [Function.update_of_ne (ne_of_mem_erase hk)]
  rw [hrest, add_right_comm, add_comm (v x), add_right_comm]

theorem le_tableSum {β : Type*} {v : α → Multiset β} {n j : ℕ} (hj : j < n) (t : ℕ → α) :
    v (t j) ≤ tableSum v n t := by
  rw [tableSum_split v hj]
  exact Multiset.le_add_right _ _

/-- When no weight repeats, a weight belongs to one cell. -/
theorem cell_eq_of_mem {β : Type*} {v : α → Multiset β} {n i k : ℕ} {t : ℕ → α} {x : β}
    (hnd : (tableSum v n t).Nodup) (hi : i < n) (hk : k < n) (hxi : x ∈ v (t i))
    (hxk : x ∈ v (t k)) : i = k := by
  by_contra hne
  rw [tableSum_split v hi, Multiset.nodup_add] at hnd
  have hrest : x ∈ ∑ k ∈ (range n).erase i, v (t k) :=
    Multiset.mem_sum.mpr ⟨k, mem_erase.mpr ⟨Ne.symm hne, mem_range.mpr hk⟩, hxk⟩
  exact Multiset.disjoint_left.mp hnd.2.2 hxi hrest

/-- A table of rows of one length is one long table. -/
theorem tableSum_rows (v : α → M) (m : ℕ) (t : ℕ → α) (n : ℕ) :
    tableSum (tableSum v m) n (fun i j => t (i * m + j)) = tableSum v (n * m) t := by
  induction n with
  | zero => simp [tableSum]
  | succ n ih =>
    have hrow : tableSum (tableSum v m) (n + 1) (fun i j => t (i * m + j)) =
        tableSum (tableSum v m) n (fun i j => t (i * m + j)) + tableSum v m fun j => t (n * m + j) :=
      sum_range_succ _ n
    rw [hrow, ih, Nat.succ_mul]
    exact (sum_range_add (fun k => v (t k)) (n * m) m).symm

theorem card_tableSum {β : Type*} (v : α → Multiset β) (n : ℕ) (t : ℕ → α) :
    (tableSum v n t).card = tableSum (fun x => (v x).card) n t :=
  map_sum Multiset.cardHom _ _

end Pthabt.Lib
