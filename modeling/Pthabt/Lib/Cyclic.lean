import Mathlib.Data.Multiset.Range
import Mathlib.Data.Multiset.MapFold
import Mathlib.Data.Int.ModEq
import Mathlib.Logic.Function.Basic

/-! A cyclic buffer of `N` cells with a read and a write position. The entries are
the cells from the read position up to the write position, so equal positions
mean an empty buffer and at most `N - 1` entries fit. -/

namespace Pthabt.Lib

/-- A buffer whose two positions are in range. -/
structure Cyclic (N : ℕ) (α : Type*) where
  cell : ℕ → α
  rp : ℕ
  wp : ℕ
  rp_lt : rp < N
  wp_lt : wp < N

namespace Cyclic

variable {N : ℕ} {α : Type*}

theorem pos (c : Cyclic N α) : 0 < N := Nat.zero_lt_of_lt c.rp_lt

theorem wp_succ_lt (c : Cyclic N α) : (c.wp + 1) % N < N := Nat.mod_lt _ c.pos

/-- Take the entry at the read position; the cell keeps its content. -/
def pop (c : Cyclic N α) : Cyclic N α :=
  { c with rp := (c.rp + 1) % N, rp_lt := Nat.mod_lt _ c.pos }

/-- Store an entry at the write position. -/
def push (c : Cyclic N α) (x : α) : Cyclic N α :=
  { c with
    cell := Function.update c.cell c.wp x
    wp := (c.wp + 1) % N
    wp_lt := c.wp_succ_lt }

/-- The number of entries. -/
def size (c : Cyclic N α) : ℕ := (c.wp + N - c.rp) % N

/-- The entries, from the read position to the write position. -/
def entries (c : Cyclic N α) : Multiset α :=
  (Multiset.range c.size).map fun k => c.cell ((c.rp + k) % N)

@[simp] theorem pop_cell (c : Cyclic N α) : c.pop.cell = c.cell := rfl

@[simp] theorem pop_wp (c : Cyclic N α) : c.pop.wp = c.wp := rfl

@[simp] theorem pop_rp (c : Cyclic N α) : c.pop.rp = (c.rp + 1) % N := rfl

@[simp] theorem push_rp (c : Cyclic N α) (x : α) : (c.push x).rp = c.rp := rfl

@[simp] theorem push_wp (c : Cyclic N α) (x : α) : (c.push x).wp = (c.wp + 1) % N := rfl

@[simp] theorem push_cell (c : Cyclic N α) (x : α) :
    (c.push x).cell = Function.update c.cell c.wp x := rfl

theorem size_lt (c : Cyclic N α) : c.size < N := Nat.mod_lt _ c.pos

theorem size_eq (c : Cyclic N α) :
    c.size = if c.rp ≤ c.wp then c.wp - c.rp else c.wp + N - c.rp := by
  have hr := c.rp_lt
  have hw := c.wp_lt
  unfold size
  split_ifs with h
  · rw [show c.wp + N - c.rp = c.wp - c.rp + N by omega, Nat.add_mod_right]
    exact Nat.mod_eq_of_lt (by omega)
  · exact Nat.mod_eq_of_lt (by omega)

theorem succ_mod (i : ℕ) (h : i < N) : (i + 1) % N = if i + 1 = N then 0 else i + 1 := by
  split_ifs with hi
  · rw [hi, Nat.mod_self]
  · exact Nat.mod_eq_of_lt (by omega)

@[simp] theorem card_entries (c : Cyclic N α) : c.entries.card = c.size := by simp [entries]

theorem size_eq_zero (c : Cyclic N α) : c.size = 0 ↔ c.rp = c.wp := by
  have hr := c.rp_lt
  have hw := c.wp_lt
  rw [size_eq]
  split_ifs <;> omega

/-- The write position is `size` cells after the read position. -/
theorem rp_add_size (c : Cyclic N α) : (c.rp + c.size) % N = c.wp := by
  have hr := c.rp_lt
  have hw := c.wp_lt
  rw [size_eq]
  split_ifs with h
  · rw [show c.rp + (c.wp - c.rp) = c.wp by omega]
    exact Nat.mod_eq_of_lt hw
  · rw [show c.rp + (c.wp + N - c.rp) = c.wp + N by omega, Nat.add_mod_right]
    exact Nat.mod_eq_of_lt hw

theorem size_pop (c : Cyclic N α) (h : c.rp ≠ c.wp) : c.pop.size + 1 = c.size := by
  have hr := c.rp_lt
  have hw := c.wp_lt
  rw [size_eq, size_eq]
  simp only [pop_rp, pop_wp, succ_mod c.rp hr]
  split_ifs <;> omega

theorem size_push (c : Cyclic N α) (x : α) (h : c.size + 1 < N) :
    (c.push x).size = c.size + 1 := by
  have hr := c.rp_lt
  have hw := c.wp_lt
  rw [size_eq] at h ⊢
  rw [size_eq]
  simp only [push_rp, push_wp, succ_mod c.wp hw]
  split_ifs at h ⊢ <;> omega

/-- Positions less than a lap apart are different cells. -/
theorem add_mod_inj {r i j : ℕ} (hi : i < N) (hj : j < N) (h : (r + i) % N = (r + j) % N) :
    i = j := by
  have h' : i ≡ j [MOD N] := Nat.ModEq.add_left_cancel (Nat.ModEq.refl r) h
  rwa [Nat.ModEq, Nat.mod_eq_of_lt hi, Nat.mod_eq_of_lt hj] at h'

theorem range_succ_head (n : ℕ) :
    Multiset.range (n + 1) = 0 ::ₘ (Multiset.range n).map Nat.succ := by
  rw [Multiset.range, Multiset.range, List.range_succ_eq_map, Multiset.map_coe, Multiset.cons_coe]

theorem entries_pop (c : Cyclic N α) (h : c.rp ≠ c.wp) :
    c.entries = c.cell c.rp ::ₘ c.pop.entries := by
  have hsize := c.size_pop h
  have hshift : ∀ k, (c.rp + Nat.succ k) % N = ((c.rp + 1) % N + k) % N := by
    intro k
    rw [Nat.mod_add_mod, show c.rp + Nat.succ k = c.rp + 1 + k by omega]
  unfold entries
  rw [← hsize, range_succ_head, Multiset.map_cons, Multiset.map_map, Nat.add_zero,
    Nat.mod_eq_of_lt c.rp_lt]
  congr 1
  exact Multiset.map_congr rfl fun k _ => congrArg c.cell (hshift k)

theorem entries_push (c : Cyclic N α) (x : α) (h : c.size + 1 < N) :
    (c.push x).entries = x ::ₘ c.entries := by
  unfold entries
  rw [size_push c x h, Multiset.range_succ, Multiset.map_cons]
  simp only [push_rp, push_cell, rp_add_size, Function.update_self]
  congr 1
  refine Multiset.map_congr rfl fun k hk => ?_
  have hk := Multiset.mem_range.mp hk
  rw [Function.update_of_ne]
  intro he
  rw [← rp_add_size] at he
  have := add_mod_inj (by omega) c.size_lt he
  omega

end Cyclic

end Pthabt.Lib
