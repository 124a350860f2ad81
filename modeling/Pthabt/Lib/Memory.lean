import Mathlib.Algebra.Order.Ring.Nat
import Mathlib.Data.BitVec

/-! Memory of bytes at 64-bit addresses. A word is kept in eight consecutive bytes, the lowest first, and
addresses wrap around. -/

namespace Pthabt.Lib.Memory

abbrev Word := BitVec 64

abbrev Mem := Word → BitVec 8

/-- The number in the `n` bytes from `a` on. -/
def loadNat (m : Mem) (a : Word) : ℕ → ℕ
  | 0 => 0
  | n + 1 => loadNat m a n + 256 ^ n * (m (a + .ofNat 64 n)).toNat

/-- The `n` lowest bytes of `v` are stored from `a` on. -/
def storeNat (m : Mem) (a : Word) (n v : ℕ) : Mem := fun x =>
  if (x - a).toNat < n then .ofNat 8 (v / 256 ^ (x - a).toNat) else m x

def load (m : Mem) (a : Word) : Word := .ofNat 64 (loadNat m a 8)

def store (m : Mem) (a v : Word) : Mem := storeNat m a 8 v.toNat

variable {m m' : Mem} {a b p v : Word} {n k K : ℕ}

theorem toNat_add_sub (a : Word) (hn : n < 2 ^ 64) : (a + .ofNat 64 n - a).toNat = n := by
  rw [BitVec.add_comm, BitVec.add_sub_cancel, BitVec.toNat_ofNat, Nat.mod_eq_of_lt hn]

theorem loadNat_congr (h : ∀ i < n, m' (a + .ofNat 64 i) = m (a + .ofNat 64 i)) :
    loadNat m' a n = loadNat m a n := by
  induction n with
  | zero => rfl
  | succ n ih =>
    rw [loadNat, loadNat, ih fun i hi => h i (Nat.lt_succ_of_lt hi), h n (Nat.lt_succ_self n)]

theorem load_congr (h : ∀ i < 8, m' (a + .ofNat 64 i) = m (a + .ofNat 64 i)) : load m' a = load m a := by
  rw [load, load, loadNat_congr h]

/-- The bytes that were stored are loaded. -/
theorem loadNat_storeNat (hk : n ≤ k) (hlt : k < 2 ^ 64) (v : ℕ) :
    loadNat (storeNat m a k v) a n = v % 256 ^ n := by
  induction n with
  | zero => rw [loadNat, Nat.pow_zero, Nat.mod_one]
  | succ n ih =>
    have hn : (a + .ofNat 64 n - a).toNat = n := toNat_add_sub a (by omega)
    rw [loadNat, ih (by omega), storeNat, hn, if_pos (by omega), BitVec.toNat_ofNat]
    exact (Nat.mod_pow_succ ..).symm

@[simp] theorem load_store (m : Mem) (a v : Word) : load (store m a v) a = v := by
  have hv : v.toNat < 256 ^ 8 := v.isLt
  rw [load, store, loadNat_storeNat (Nat.le_refl 8) (by decide), Nat.mod_eq_of_lt hv]
  exact BitVec.eq_of_toNat_eq (by simp)

/-- The bytes of a word. -/
theorem load_eq_of_bytes (h : ∀ i < 8, m (a + .ofNat 64 i) = .ofNat 8 (v.toNat / 256 ^ i)) : load m a = v := by
  rw [← load_store m a v]
  refine (load_congr fun i hi => ?_).symm
  have hoff : (a + .ofNat 64 i - a).toNat = i := toNat_add_sub a (by omega)
  rw [store, storeNat, hoff, if_pos hi, h i hi]

/-- A word that a store does not overlap stays. -/
theorem load_store_of_apart (h : 8 ≤ (b - a).toNat) (h' : 8 ≤ (a - b).toNat) :
    load (store m a v) b = load m b := by
  refine load_congr fun i hi => ?_
  have hout : ¬ (b + .ofNat 64 i - a).toNat < 8 := by bv_omega
  rw [store, storeNat, if_neg hout]

/-! ### The stack -/

/-- The `K` bytes below `p`. -/
def Below (p : Word) (K : ℕ) (x : Word) : Prop := 0 < (p - x).toNat ∧ (p - x).toNat ≤ K

instance (p : Word) (K : ℕ) (x : Word) : Decidable (Below p K x) := inferInstanceAs (Decidable (_ ∧ _))

theorem Below.mono {x : Word} (h : Below p n x) {q : Word} (hq : (q - p).toNat + n ≤ K) (hK : K < 2 ^ 64) :
    Below q K x := by
  obtain ⟨h0, hle⟩ := h
  constructor <;> bv_omega

/-- The two memories agree but for the `K` bytes below `p`. -/
def EqAbove (p : Word) (K : ℕ) (m m' : Mem) : Prop := ∀ x, ¬ Below p K x → m' x = m x

theorem EqAbove.refl (p : Word) (K : ℕ) (m : Mem) : EqAbove p K m m := fun _ _ => rfl

theorem EqAbove.trans {m'' : Mem} (h : EqAbove p K m m') (h' : EqAbove p K m' m'') : EqAbove p K m m'' :=
  fun x hx => (h' x hx).trans (h x hx)

theorem EqAbove.mono (h : EqAbove p n m m') {q : Word} (hq : (q - p).toNat + n ≤ K) (hK : K < 2 ^ 64) :
    EqAbove q K m m' :=
  fun x hx => h x fun hb => hx (hb.mono hq hK)

/-- A store to the stack. -/
theorem eqAbove_store (ha : 8 ≤ (p - a).toNat) (hK : (p - a).toNat ≤ K) (v : Word) :
    EqAbove p K m (store m a v) := by
  intro x hx
  rw [store, storeNat, if_neg]
  intro hlt
  refine hx ⟨?_, ?_⟩ <;> bv_omega

theorem EqAbove.store (h : EqAbove p K m m') (ha : 8 ≤ (p - a).toNat) (hK : (p - a).toNat ≤ K) (v : Word) :
    EqAbove p K m (store m' a v) :=
  h.trans (eqAbove_store ha hK v)

/-- A word above the bytes that may differ. -/
theorem EqAbove.load_eq (h : EqAbove p K m m') (hb : (b - p).toNat + 8 + K ≤ 2 ^ 64) :
    load m' b = load m b := by
  refine load_congr fun i hi => h _ ?_
  rintro ⟨h0, hle⟩
  bv_omega

/-- The words `l` are stored below `a`, each below the one before it. -/
def storeDown (m : Mem) (a : Word) : List Word → Mem
  | [] => m
  | v :: l => storeDown (store m (a - 8) v) (a - 8) l

theorem eqAbove_storeDown {l : List Word} (hl : 8 * l.length < 2 ^ 64) :
    EqAbove a (8 * l.length) m (storeDown m a l) := by
  induction l generalizing m a with
  | nil => exact .refl a 0 m
  | cons v l ih =>
    rw [List.length_cons] at hl ⊢
    have hrest := ih (m := store m (a - 8) v) (a := a - 8) (by omega)
    have hfirst := eqAbove_store (m := m) (p := a) (a := a - 8) (K := 8 * (l.length + 1)) (by bv_omega) (by bv_omega) v
    exact hfirst.trans (hrest.mono (by bv_omega) hl)

/-- Each of the words is loaded. -/
theorem load_storeDown {l : List Word} (hl : 8 * l.length < 2 ^ 64) {i : ℕ} (hi : i < l.length) :
    load (storeDown m a l) (a - .ofNat 64 (8 * (i + 1))) = l[i] := by
  induction l generalizing m a i with
  | nil => simp at hi
  | cons v l ih =>
    rw [List.length_cons] at hl hi
    cases i with
    | zero =>
      have hstore := (eqAbove_storeDown (m := store m (a - 8) v) (a := a - 8) (l := l) (by omega)).load_eq
        (b := a - 8) (by bv_omega)
      rw [load_store] at hstore
      exact hstore
    | succ i =>
      have hsub : a - .ofNat 64 (8 * (i + 1 + 1)) = a - 8 - .ofNat 64 (8 * (i + 1)) := by bv_omega
      rw [hsub]
      exact ih (by omega) (Nat.lt_of_succ_lt_succ hi)

theorem storeDown_concat (m : Mem) (a : Word) (l : List Word) (v : Word) :
    storeDown m a (l ++ [v]) = store (storeDown m a l) (a - .ofNat 64 (8 * (l.length + 1))) v := by
  induction l generalizing m a with
  | nil => rfl
  | cons w l ih =>
    rw [List.cons_append, storeDown, storeDown, ih, List.length_cons]
    congr 1
    bv_omega

/-- The memory `m` with the `K` bytes below `p` of `m'`. -/
def splice (p : Word) (K : ℕ) (m' m : Mem) : Mem := fun x => if Below p K x then m' x else m x

theorem splice_self (p : Word) (K : ℕ) (m : Mem) : splice p K m m = m := by
  funext x
  exact ite_self (m x)

theorem eqAbove_splice (p : Word) (K : ℕ) (m m' : Mem) : EqAbove p K m (splice p K m' m) :=
  fun _ hx => if_neg hx

theorem EqAbove.splice_eq (h : EqAbove p K m m') : splice p K m' m = m' := by
  funext x
  by_cases hx : Below p K x
  · exact if_pos hx
  · exact (if_neg hx).trans (h x hx).symm

@[simp] theorem splice_splice (p : Word) (K : ℕ) (m m' m₁ : Mem) :
    splice p K m₁ (splice p K m' m) = splice p K m₁ m := by
  funext x
  unfold splice
  split <;> rfl

/-- A word among the bytes that are spliced in. -/
theorem load_splice {q : Word} (hq : 8 ≤ (p - q).toNat) (hK : (p - q).toNat ≤ K) :
    load (splice p K m' m) q = load m' q := by
  refine load_congr fun i hi => if_pos ⟨?_, ?_⟩ <;> bv_omega

end Pthabt.Lib.Memory
