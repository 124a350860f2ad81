import Pthabt.Lib.Cyclic

/-! A ring of `n` slots in which every post carries a tag that is inverted at each lap.
A reader that counts what it has taken, and is never a full lap behind, sees by the tag
of its next slot whether that slot holds the next post or one of the lap before. -/

namespace Pthabt.Lib.PhaseRing

variable {α : Type*} {n : ℕ}

/-- The tag of the `k`-th post; in the first lap it is `true`. -/
def tag (n k : ℕ) : Bool := k / n % 2 == 0

/-- The slots hold the most recent posts of `xs` and, in the first lap, no other true tag. -/
structure Holds (n : ℕ) (slot : ℕ → α × Bool) (xs : List α) : Prop where
  recent : ∀ k (hk : k < xs.length), xs.length ≤ k + n → slot (k % n) = (xs[k], tag n k)
  unused : ∀ i, xs.length ≤ i → i < n → (slot i).2 = false

theorem tag_zero (n : ℕ) : tag n 0 = true := by simp [tag]

theorem tag_of_lt {k : ℕ} (h : k < n) : tag n k = true := by simp [tag, Nat.div_eq_of_lt h]

theorem tag_add (hn : 0 < n) (k : ℕ) : tag n (k + n) = !tag n k := by
  unfold tag
  rw [Nat.add_div_right k hn]
  rcases Nat.mod_two_eq_zero_or_one (k / n) with h | h
  · have h' : (k / n + 1) % 2 = 1 := by omega
    simp [h, h']
  · have h' : (k / n + 1) % 2 = 0 := by omega
    simp [h, h']

/-- The tag changes where the position returns to the first slot. -/
theorem tag_succ (hn : 0 < n) (k : ℕ) :
    tag n (k + 1) = if k % n + 1 = n then !tag n k else tag n k := by
  have hdiv := Nat.div_add_mod k n
  have hlt := Nat.mod_lt k hn
  split_ifs with h
  · have hq : (k + 1) / n = k / n + 1 := by
      rw [← Nat.add_div_right k hn]
      have hk : k + 1 = n * (k / n + 1) := by
        rw [Nat.mul_add]
        omega
      rw [hk, Nat.mul_div_cancel_left _ hn, Nat.add_div_right k hn]
    rw [← tag_add hn, tag, tag, hq, Nat.add_div_right k hn]
  · have hq : (k + 1) / n = k / n := by
      have hk : k + 1 = k % n + 1 + n * (k / n) := by omega
      rw [hk, Nat.add_mul_div_left _ _ hn, Nat.div_eq_of_lt (by omega), Nat.zero_add]
    rw [tag, tag, hq]

/-- The slot after the one of the `k`-th post. -/
theorem succ_mod (hn : 0 < n) (k : ℕ) :
    (k + 1) % n = if k % n + 1 = n then 0 else k % n + 1 := by
  rw [← Nat.mod_add_mod, Cyclic.succ_mod _ (Nat.mod_lt k hn)]

theorem Holds.congr {slot slot' : ℕ → α × Bool} {xs : List α} (h : Holds n slot xs) (hn : 0 < n)
    (he : ∀ i < n, slot' i = slot i) : Holds n slot' xs :=
  ⟨fun k hk hle => by rw [he _ (Nat.mod_lt k hn)]; exact h.recent k hk hle,
    fun i hi hlt => by rw [he i hlt]; exact h.unused i hi hlt⟩

theorem holds_nil {slot : ℕ → α × Bool} (h : ∀ i < n, (slot i).2 = false) :
    Holds n slot ([] : List α) :=
  ⟨fun k hk => absurd hk (Nat.not_lt_zero k), fun i _ hi => h i hi⟩

/-- Posts less than a lap apart are in different slots. -/
theorem slot_ne {k m : ℕ} (hkm : k < m) (hle : m < k + n) : k % n ≠ m % n := by
  intro he
  have hmod : k ≡ m [MOD n] := he
  have hdvd := (Nat.modEq_iff_dvd' hkm.le).mp hmod
  have := Nat.le_of_dvd (by omega) hdvd
  omega

/-- The next post. -/
theorem Holds.post {slot : ℕ → α × Bool} {xs : List α} (h : Holds n slot xs) (x : α) :
    Holds n (Function.update slot (xs.length % n) (x, tag n xs.length)) (xs ++ [x]) := by
  constructor
  · intro k hk hle
    rw [List.length_append, List.length_singleton] at hk hle
    by_cases he : k = xs.length
    · subst he
      rw [Function.update_self, List.getElem_concat_length rfl]
    · have hlt : k < xs.length := by omega
      rw [Function.update_of_ne (slot_ne hlt (by omega)), List.getElem_append_left hlt]
      exact h.recent k hlt (by omega)
  · intro i hi hlt
    rw [List.length_append, List.length_singleton] at hi
    have hne : i ≠ xs.length % n := by
      rw [Nat.mod_eq_of_lt (by omega)]
      omega
    rw [Function.update_of_ne hne]
    exact h.unused i (by omega) hlt

/-- The slot of a post that is not a lap behind holds it. -/
theorem Holds.fresh {slot : ℕ → α × Bool} {xs : List α} (h : Holds n slot xs) {c : ℕ}
    (hc : c < xs.length) (hle : xs.length ≤ c + n) : slot (c % n) = (xs[c], tag n c) :=
  h.recent c hc hle

/-- The slot of the next post has the tag of the lap before. -/
theorem Holds.stale {slot : ℕ → α × Bool} {xs : List α} (h : Holds n slot xs) (hn : 0 < n) :
    (slot (xs.length % n)).2 ≠ tag n xs.length := by
  by_cases hlt : xs.length < n
  · rw [Nat.mod_eq_of_lt hlt, h.unused _ le_rfl hlt, tag_of_lt hlt]
    decide
  · obtain ⟨k, hk⟩ := Nat.exists_eq_add_of_le' (Nat.le_of_not_lt hlt)
    have hr := h.recent k (by omega) (by omega)
    rw [hk, Nat.add_mod_right, hr, tag_add hn]
    simp

/-- The tag of the reader's next slot tells whether a post is there. -/
theorem Holds.tag_iff {slot : ℕ → α × Bool} {xs : List α} (h : Holds n slot xs) (hn : 0 < n) {c : ℕ}
    (hc : c ≤ xs.length) (hle : xs.length ≤ c + n) :
    (slot (c % n)).2 = tag n c ↔ c < xs.length := by
  constructor
  · intro ht
    by_contra hge
    obtain rfl : c = xs.length := by omega
    exact h.stale hn ht
  · intro hlt
    rw [h.fresh hlt hle]

end Pthabt.Lib.PhaseRing
