import Pthabt.Lib.Cyclic

/-! A cyclic buffer whose positions are taken before their cells are accessed. Writers and readers
take numbers from two counters; the writer of a number stores an entry in its cell later, and
the reader of a number loads it later. While no writer laps the readers, a reader waits for the
writer of its number, and a writer for the reader of the number a lap before, each reader loads
what the writer of its number has stored. -/

namespace Pthabt.Lib

/-- What happened to the numbers of a buffer: how many readers and writers have taken one,
what each writer has stored, and which readers have loaded. -/
structure Tickets (α : Type*) where
  reads : ℕ
  writes : ℕ
  entry : ℕ → Option α
  loaded : ℕ → Bool

namespace Cyclic

variable {N : ℕ} {α : Type*}

/-- A writer takes the write position. -/
def reserve (c : Cyclic N α) : Cyclic N α :=
  { c with wp := (c.wp + 1) % N, wp_lt := c.wp_succ_lt }

/-- An access to a cell by its index. -/
def store (c : Cyclic N α) (q : ℕ) (x : α) : Cyclic N α :=
  { c with cell := Function.update c.cell q x }

end Cyclic

namespace Tickets

variable {N : ℕ} {α : Type*}

def reserve (h : Tickets α) : Tickets α := { h with writes := h.writes + 1 }

def take (h : Tickets α) : Tickets α := { h with reads := h.reads + 1 }

def store (h : Tickets α) (p : ℕ) (x : α) : Tickets α :=
  { h with entry := Function.update h.entry p (some x) }

def load (h : Tickets α) (p : ℕ) : Tickets α :=
  { h with loaded := Function.update h.loaded p true }

@[simp] theorem entry_store (h : Tickets α) (p : ℕ) (x : α) : (h.store p x).entry p = some x :=
  Function.update_self ..

theorem entry_store_of_ne (h : Tickets α) (x : α) {p q : ℕ} (hqp : q ≠ p) :
    (h.store p x).entry q = h.entry q :=
  Function.update_of_ne hqp ..

@[simp] theorem loaded_load (h : Tickets α) (p : ℕ) : (h.load p).loaded p = true :=
  Function.update_self ..

theorem loaded_load_of_ne (h : Tickets α) {p q : ℕ} (hqp : q ≠ p) :
    (h.load p).loaded q = h.loaded q :=
  Function.update_of_ne hqp ..

/-- The entries stored with a number below `n`. -/
def stored (h : Tickets α) (n : ℕ) : Multiset α := (Multiset.range n).filterMap h.entry

/-- The entries that readers have loaded. -/
def taken (h : Tickets α) : Multiset α :=
  (Multiset.range h.reads).filterMap fun p => if h.loaded p then h.entry p else none

/-- The buffer and its numbers: readers are behind writers, by less than a lap; a cell holds what
was stored with its last number until that is loaded. -/
structure Fits (h : Tickets α) (c : Cyclic N α) : Prop where
  le : h.reads ≤ h.writes
  lt : h.writes < h.reads + N
  rp : c.rp = h.reads % N
  wp : c.wp = h.writes % N
  stored_lt : ∀ p, h.entry p ≠ none → p < h.writes
  loaded_lt : ∀ p, h.loaded p = true → p < h.reads
  loaded_stored : ∀ p, h.loaded p = true → h.entry p ≠ none
  lap : ∀ p, h.entry (p + N) ≠ none → h.loaded p = true
  cell : ∀ p x, h.entry p = some x → h.loaded p = false → c.cell (p % N) = x

theorem mod_eq_of_window {m n : ℕ} (hmn : m ≤ n) (hlt : n < m + N) (h : m % N = n % N) : m = n := by
  have hdvd : N ∣ n - m := Nat.dvd_of_mod_eq_zero (Nat.sub_mod_eq_zero_of_mod_eq h.symm)
  rcases Nat.eq_zero_or_pos (n - m) with h0 | hpos
  · omega
  · have := Nat.le_of_dvd hpos hdvd
    omega

namespace Fits

variable {h : Tickets α} {c : Cyclic N α}

theorem empty_iff (hf : h.Fits c) : c.rp = c.wp ↔ h.reads = h.writes := by
  rw [hf.rp, hf.wp]
  exact ⟨mod_eq_of_window hf.le hf.lt, fun he => by rw [he]⟩

theorem full_iff (hf : h.Fits c) : (c.wp + 1) % N = c.rp ↔ h.writes + 1 = h.reads + N := by
  have hpos := c.pos
  have hle := hf.le
  have hlt := hf.lt
  rw [hf.rp, hf.wp, Nat.mod_add_mod]
  constructor
  · intro he
    by_cases hfull : h.writes + 1 = h.reads + N
    · exact hfull
    · have := mod_eq_of_window (N := N) (by omega : h.reads ≤ h.writes + 1) (by omega) he.symm
      omega
  · intro he
    rw [he, Nat.add_mod_right]

/-- All numbers of a cell before one that was stored are loaded. -/
theorem loaded_of_later (hf : h.Fits c) : ∀ k p, h.entry (p + (k + 1) * N) ≠ none → h.loaded p = true := by
  intro k
  induction k with
  | zero =>
    intro p hp
    rw [Nat.zero_add, Nat.one_mul] at hp
    exact hf.lap p hp
  | succ k ih =>
    intro p hp
    have hprev : p + (k + 1 + 1) * N = p + (k + 1) * N + N := by rw [Nat.succ_mul, ← Nat.add_assoc]
    rw [hprev] at hp
    exact ih p (hf.loaded_stored _ (hf.lap _ hp))

theorem loaded_of_lt (hf : h.Fits c) {p q : ℕ} (hpq : p < q) (hmod : p % N = q % N)
    (hq : h.entry q ≠ none) : h.loaded p = true := by
  obtain ⟨k, hk⟩ := Nat.dvd_of_mod_eq_zero (Nat.sub_mod_eq_zero_of_mod_eq hmod.symm)
  cases k with
  | zero =>
    rw [Nat.mul_zero] at hk
    omega
  | succ k =>
    apply hf.loaded_of_later k p
    rwa [Nat.mul_comm, ← hk, Nat.add_sub_cancel' hpq.le]

theorem reserve (hf : h.Fits c) (hfull : (c.wp + 1) % N ≠ c.rp) : h.reserve.Fits c.reserve where
  le := Nat.le_succ_of_le hf.le
  lt := by
    have hlt := hf.lt
    have hne : h.writes + 1 ≠ h.reads + N := fun he => hfull (hf.full_iff.mpr he)
    change h.writes + 1 < h.reads + N
    omega
  rp := hf.rp
  wp := by
    change (c.wp + 1) % N = (h.writes + 1) % N
    rw [hf.wp, Nat.mod_add_mod]
  stored_lt p hp := Nat.lt_succ_of_lt (hf.stored_lt p hp)
  loaded_lt := hf.loaded_lt
  loaded_stored := hf.loaded_stored
  lap := hf.lap
  cell := hf.cell

theorem take (hf : h.Fits c) (hempty : c.rp ≠ c.wp) : h.take.Fits c.pop where
  le := by
    have hle := hf.le
    have hne : h.reads ≠ h.writes := fun he => hempty (hf.empty_iff.mpr he)
    change h.reads + 1 ≤ h.writes
    omega
  lt := by
    have hlt := hf.lt
    change h.writes < h.reads + 1 + N
    omega
  rp := by
    change (c.rp + 1) % N = (h.reads + 1) % N
    rw [hf.rp, Nat.mod_add_mod]
  wp := hf.wp
  stored_lt := hf.stored_lt
  loaded_lt p hp := Nat.lt_succ_of_lt (hf.loaded_lt p hp)
  loaded_stored := hf.loaded_stored
  lap := hf.lap
  cell := hf.cell

/-- The numbers of a cell before `p` are loaded if the last one of them is. -/
theorem loaded_of_lap (hf : h.Fits c) {p q : ℕ} (hqp : q < p) (hmod : q % N = p % N)
    (hlap : ∀ r, r + N = p → h.loaded r = true) : h.loaded q = true := by
  have hle := Nat.le_of_dvd (by omega)
    (Nat.dvd_of_mod_eq_zero (Nat.sub_mod_eq_zero_of_mod_eq hmod.symm))
  have hprev := hlap (p - N) (by omega)
  by_cases heq : q = p - N
  · exact heq ▸ hprev
  · refine hf.loaded_of_lt (by omega) ?_ (hf.loaded_stored _ hprev)
    rw [hmod, Nat.mod_eq_sub_mod (by omega)]

/-- The writer of `p` stores, after the reader of the number a lap before has loaded. -/
theorem store (hf : h.Fits c) {p : ℕ} (hp : p < h.writes) (hnone : h.entry p = none)
    (hlap : ∀ q, q + N = p → h.loaded q = true) (x : α) :
    (h.store p x).Fits (c.store (p % N) x) where
  le := hf.le
  lt := hf.lt
  rp := hf.rp
  wp := hf.wp
  stored_lt q hq := by
    by_cases hqp : q = p
    · exact hqp ▸ hp
    · exact hf.stored_lt q (by rwa [entry_store_of_ne h x hqp] at hq)
  loaded_lt := hf.loaded_lt
  loaded_stored q hq := by
    by_cases hqp : q = p
    · subst hqp
      exact absurd hnone (hf.loaded_stored q hq)
    · rw [entry_store_of_ne h x hqp]
      exact hf.loaded_stored q hq
  lap q hq := by
    by_cases hqp : q + N = p
    · exact hlap q hqp
    · exact hf.lap q (by rwa [entry_store_of_ne h x hqp] at hq)
  cell q y hq hload := by
    have hload : h.loaded q = false := hload
    change Function.update c.cell (p % N) x (q % N) = y
    by_cases hqp : q = p
    · subst hqp
      rw [entry_store] at hq
      rw [Function.update_self]
      exact Option.some.inj hq
    · rw [entry_store_of_ne h x hqp] at hq
      have hne : q % N ≠ p % N := by
        intro hmod
        have hloaded : h.loaded q = true := by
          rcases Nat.lt_or_gt_of_ne hqp with hlt | hlt
          · exact hf.loaded_of_lap hlt hmod hlap
          · -- a later number of the cell is stored after `p`
            have hp' := hf.loaded_of_lt hlt hmod.symm (by rw [hq]; exact Option.some_ne_none y)
            exact absurd hnone (hf.loaded_stored p hp')
        rw [hload] at hloaded
        cases hloaded
      rw [Function.update_of_ne hne]
      exact hf.cell q y hq hload

theorem load (hf : h.Fits c) {p : ℕ} (hp : p < h.reads) (hs : h.entry p ≠ none) : (h.load p).Fits c where
  le := hf.le
  lt := hf.lt
  rp := hf.rp
  wp := hf.wp
  stored_lt := hf.stored_lt
  loaded_lt q hq := by
    by_cases hqp : q = p
    · exact hqp ▸ hp
    · exact hf.loaded_lt q (by rwa [loaded_load_of_ne h hqp] at hq)
  loaded_stored q hq := by
    by_cases hqp : q = p
    · exact hqp ▸ hs
    · exact hf.loaded_stored q (by rwa [loaded_load_of_ne h hqp] at hq)
  lap q hq := by
    by_cases hqp : q = p
    · rw [hqp, loaded_load]
    · rw [loaded_load_of_ne h hqp]
      exact hf.lap q hq
  cell q y hq hload := by
    refine hf.cell q y hq ?_
    by_cases hqp : q = p
    · subst hqp
      rw [loaded_load] at hload
      cases hload
    · rwa [loaded_load_of_ne h hqp] at hload

theorem size (hf : h.Fits c) : c.size = h.writes - h.reads := by
  have hle := hf.le
  have hlt := hf.lt
  have hwp := c.rp_add_size
  rw [hf.rp, hf.wp, Nat.mod_add_mod] at hwp
  refine Cyclic.add_mod_inj c.size_lt (by omega) (hwp.trans ?_)
  rw [Nat.add_sub_cancel' hle]

end Fits

/-- The numbers of a buffer at rest; the cells are numbered from the first one. -/
def ofRing (c : Cyclic N α) : Tickets α where
  reads := c.rp
  writes := c.rp + c.size
  entry p := if p < c.rp + c.size then some (c.cell (p % N)) else none
  loaded p := decide (p < c.rp)

theorem ofRing_entry (c : Cyclic N α) {p : ℕ} : (ofRing c).entry p ≠ none ↔ p < c.rp + c.size := by
  unfold ofRing
  dsimp only
  split_ifs with hp <;> simp [hp]

/-- An empty buffer that starts at its first cell. -/
theorem ofRing_empty (c : Cyclic N α) (hrp : c.rp = 0) (hwp : c.wp = 0) :
    ofRing c = ⟨0, 0, fun _ => none, fun _ => false⟩ := by
  have hsize : c.size = 0 := (Cyclic.size_eq_zero c).mpr (hrp.trans hwp.symm)
  unfold ofRing
  rw [hsize, hrp]
  congr 1

theorem fits_ofRing (c : Cyclic N α) : (ofRing c).Fits c where
  le := Nat.le_add_right _ _
  lt := Nat.add_lt_add_left c.size_lt c.rp
  rp := (Nat.mod_eq_of_lt c.rp_lt).symm
  wp := c.rp_add_size.symm
  stored_lt p hp := (ofRing_entry c).mp hp
  loaded_lt p hp := of_decide_eq_true hp
  loaded_stored p hp := (ofRing_entry c).mpr (Nat.lt_add_right _ (of_decide_eq_true hp))
  lap p hp := by
    have hlt := (ofRing_entry c).mp hp
    have hsize := c.size_lt
    exact decide_eq_true (by omega)
  cell p x hp _ := by
    change (if p < c.rp + c.size then some (c.cell (p % N)) else none) = some x at hp
    split_ifs at hp
    exact Option.some.inj hp

/-! ### The entries -/

theorem filterMap_congr {ι β : Type*} {s : Multiset ι} {f g : ι → Option β} :
    (∀ a ∈ s, f a = g a) → s.filterMap f = s.filterMap g :=
  Quot.inductionOn s fun _ h => congrArg Multiset.ofList (List.filterMap_congr h)

/-- One more member of a set is mapped. -/
theorem filterMap_cons_of_mem {ι β : Type*} [DecidableEq ι] {s : Multiset ι} (hs : s.Nodup) {f g : ι → Option β}
    {a : ι} (ha : a ∈ s) {x : β} (hne : ∀ b, b ≠ a → g b = f b) (hf : f a = none)
    (hg : g a = some x) : s.filterMap g = x ::ₘ s.filterMap f := by
  rw [← Multiset.cons_erase ha, Multiset.filterMap_cons_some _ _ _ hg,
    Multiset.filterMap_cons_none _ _ hf]
  congr 1
  refine filterMap_congr fun b hb => hne b fun hba => ?_
  rw [hba] at hb
  exact hs.notMem_erase hb

variable {h : Tickets α} {c : Cyclic N α}

theorem stored_reserve (hf : h.Fits c) : h.reserve.stored (h.writes + 1) = h.stored h.writes := by
  have hnone : h.entry h.writes = none := by
    by_contra hne
    exact Nat.lt_irrefl _ (hf.stored_lt _ hne)
  unfold stored
  rw [Multiset.range_succ]
  exact Multiset.filterMap_cons_none _ _ hnone

theorem stored_store {n p : ℕ} (hp : p < n) (hnone : h.entry p = none) (x : α) :
    (h.store p x).stored n = x ::ₘ h.stored n :=
  filterMap_cons_of_mem (Multiset.nodup_range n) (Multiset.mem_range.mpr hp)
    (fun _ hq => entry_store_of_ne h x hq) hnone (entry_store h p x)

theorem taken_take (hf : h.Fits c) : h.take.taken = h.taken := by
  have hnot : ¬ h.loaded h.reads = true := fun hl => Nat.lt_irrefl _ (hf.loaded_lt _ hl)
  unfold taken
  change (Multiset.range (h.reads + 1)).filterMap _ = _
  rw [Multiset.range_succ]
  exact Multiset.filterMap_cons_none _ _ (if_neg hnot)

theorem taken_store (hf : h.Fits c) {p : ℕ} (hnone : h.entry p = none) (x : α) :
    (h.store p x).taken = h.taken := by
  refine filterMap_congr fun q _ => ?_
  by_cases hqp : q = p
  · subst hqp
    have hnot : ¬ h.loaded q = true := fun hl => hf.loaded_stored _ hl hnone
    rw [if_neg hnot]
    exact if_neg hnot
  · rw [entry_store_of_ne h x hqp]
    rfl

theorem taken_load {p : ℕ} (hp : p < h.reads) (hl : h.loaded p = false) {x : α}
    (hx : h.entry p = some x) : (h.load p).taken = x ::ₘ h.taken := by
  refine filterMap_cons_of_mem (Multiset.nodup_range _) (Multiset.mem_range.mpr hp) ?_ ?_ ?_
  · intro q hq
    rw [loaded_load_of_ne h hq]
    rfl
  · rw [hl]
    rfl
  · rw [loaded_load, if_pos rfl]
    exact hx

/-- When every access was made, the entries stored are those loaded and those in the buffer. -/
theorem stored_eq (hf : h.Fits c) (hs : ∀ p, p < h.writes → h.entry p ≠ none)
    (hl : ∀ p, p < h.reads → h.loaded p = true) : h.stored h.writes = h.taken + c.entries := by
  have hwrites : h.writes = h.reads + c.size := by
    rw [hf.size, Nat.add_sub_cancel' hf.le]
  have htaken : (Multiset.range h.reads).filterMap h.entry = h.taken :=
    filterMap_congr fun p hp => (if_pos (hl p (Multiset.mem_range.mp hp))).symm
  have hcells : ((Multiset.range c.size).map (h.reads + ·)).filterMap h.entry = c.entries := by
    rw [Multiset.filterMap_map, Cyclic.entries, ← Multiset.filterMap_eq_map]
    refine filterMap_congr fun k hk => ?_
    have hk := Multiset.mem_range.mp hk
    obtain ⟨x, hx⟩ := Option.ne_none_iff_exists'.mp (hs (h.reads + k) (by omega))
    have hnot : h.loaded (h.reads + k) = false := by
      rw [Bool.eq_false_iff]
      intro hload
      have := hf.loaded_lt _ hload
      omega
    change h.entry (h.reads + k) = some (c.cell ((c.rp + k) % N))
    rw [hx, hf.rp, Nat.mod_add_mod, hf.cell _ x hx hnot]
  unfold stored
  rw [← htaken, ← hcells, hwrites, Multiset.range_add, Multiset.filterMap_add]

end Tickets

/-! ### The threads that hold numbers -/

section Holders

variable {ι κ : Type*} [DecidableEq ι] {w : ι → Option κ} {t : ι} {p : κ}

/-- No two threads hold the same. -/
def Distinct (w : ι → Option κ) : Prop := ∀ t u p, w t = some p → w u = some p → t = u

/-- The threads hold exactly what is in `q`, each of it once. -/
structure Holds (w : ι → Option κ) (q : κ → Prop) : Prop where
  iff : ∀ p, (∃ t, w t = some p) ↔ q p
  distinct : Distinct w

/-- A thread takes what no other one holds, or drops what it has. -/
theorem Distinct.update (h : Distinct w) {x : Option κ} (hx : ∀ p u, x = some p → u ≠ t → w u ≠ some p) :
    Distinct (Function.update w t x) := by
  intro u v p hu hv
  by_cases hut : u = t
  · subst hut
    rw [Function.update_self] at hu
    by_cases hvu : v = u
    · exact hvu.symm
    · rw [Function.update_of_ne hvu] at hv
      exact absurd hv (hx p v hu hvu)
  · rw [Function.update_of_ne hut] at hu
    by_cases hvt : v = t
    · subst hvt
      rw [Function.update_self] at hv
      exact absurd hu (hx p u hv hut)
    · rw [Function.update_of_ne hvt] at hv
      exact h u v p hu hv

variable {q q' : κ → Prop}

theorem Holds.acquire (h : Holds w q) (ht : w t = none) (hp : ¬ q p)
    (hq : ∀ n, q' n ↔ n = p ∨ q n) : Holds (Function.update w t (some p)) q' where
  iff n := by
    rw [hq, ← h.iff]
    constructor
    · rintro ⟨u, hu⟩
      by_cases hut : u = t
      · subst hut
        rw [Function.update_self] at hu
        exact .inl (Option.some.inj hu).symm
      · rw [Function.update_of_ne hut] at hu
        exact .inr ⟨u, hu⟩
    · rintro (rfl | ⟨u, hu⟩)
      · exact ⟨t, Function.update_self ..⟩
      · refine ⟨u, ?_⟩
        rwa [Function.update_of_ne]
        rintro rfl
        rw [ht] at hu
        cases hu
  distinct := by
    apply h.distinct.update
    rintro n u hn - hu
    rw [← Option.some.inj hn] at hu
    exact hp ((h.iff p).mp ⟨u, hu⟩)

theorem Holds.release (h : Holds w q) (ht : w t = some p) (hq : ∀ n, q' n ↔ n ≠ p ∧ q n) :
    Holds (Function.update w t none) q' where
  iff n := by
    rw [hq, ← h.iff]
    constructor
    · rintro ⟨u, hu⟩
      by_cases hut : u = t
      · subst hut
        rw [Function.update_self] at hu
        cases hu
      · rw [Function.update_of_ne hut] at hu
        refine ⟨?_, u, hu⟩
        rintro rfl
        exact hut (h.distinct u t n hu ht)
    · rintro ⟨hn, u, hu⟩
      refine ⟨u, ?_⟩
      rwa [Function.update_of_ne]
      rintro rfl
      rw [ht] at hu
      exact hn (Option.some.inj hu).symm
  distinct := h.distinct.update fun _ _ hx => by cases hx

omit [DecidableEq ι] in
theorem Holds.congr (h : Holds w q) (hq : ∀ n, q' n ↔ q n) : Holds w q' where
  iff n := (h.iff n).trans (hq n).symm
  distinct := h.distinct

/-- What the places say of the threads, after one went to another place. -/
theorem proj_update {β γ : Type*} (f : β → γ) (g : ι → β) (t : ι) (x : β) :
    (fun u => f (Function.update g t x u)) = Function.update (fun u => f (g u)) t (f x) := by
  funext u
  by_cases hu : u = t
  · subst hu
    rw [Function.update_self, Function.update_self]
  · rw [Function.update_of_ne hu, Function.update_of_ne hu]

/-- A place that says the same leaves everything as it is. -/
theorem proj_update_eq {β γ : Type*} {f : β → γ} {g : ι → β} {t : ι} {x : β} (h : f x = f (g t)) :
    (fun u => f (Function.update g t x u)) = fun u => f (g u) := by
  rw [proj_update f, h]
  exact Function.update_eq_self t _

end Holders

/-! ### Buffers shared by threads -/

namespace Tickets

variable {ι α : Type*} [DecidableEq ι] {N : ℕ} {h : Tickets α} {c : Cyclic N α} {w r : ι → Option ℕ} {t : ι}

/-- The threads hold the numbers of the accesses that are still to be made. -/
structure Shared (h : Tickets α) (c : Cyclic N α) (w r : ι → Option ℕ) : Prop where
  fits : h.Fits c
  writers : Holds w fun p => p < h.writes ∧ h.entry p = none
  readers : Holds r fun p => p < h.reads ∧ h.loaded p = false

theorem lt_succ_and {q : ℕ → Prop} {n : ℕ} (hn : q n) (p : ℕ) :
    p < n + 1 ∧ q p ↔ p = n ∨ p < n ∧ q p := by
  constructor
  · rintro ⟨hp, hq⟩
    rcases Nat.lt_succ_iff_lt_or_eq.mp hp with hlt | heq
    · exact .inr ⟨hlt, hq⟩
    · exact .inl heq
  · rintro (rfl | ⟨hp, hq⟩)
    · exact ⟨Nat.lt_succ_self _, hn⟩
    · exact ⟨Nat.lt_succ_of_lt hp, hq⟩

namespace Shared

/-- A writer takes a number. -/
theorem reserve (hs : h.Shared c w r) (ht : w t = none) (hfull : (c.wp + 1) % N ≠ c.rp) :
    h.reserve.Shared c.reserve (Function.update w t (some h.writes)) r where
  fits := hs.fits.reserve hfull
  writers := by
    have hnone : h.entry h.writes = none := by
      by_contra hne
      exact Nat.lt_irrefl _ (hs.fits.stored_lt _ hne)
    exact hs.writers.acquire ht (fun hp => Nat.lt_irrefl _ hp.1) (lt_succ_and hnone)
  readers := hs.readers

/-- A reader takes a number. -/
theorem take (hs : h.Shared c w r) (ht : r t = none) (hempty : c.rp ≠ c.wp) :
    h.take.Shared c.pop w (Function.update r t (some h.reads)) where
  fits := hs.fits.take hempty
  writers := hs.writers
  readers := by
    have hnot : h.loaded h.reads = false := by
      rw [Bool.eq_false_iff]
      exact fun hl => Nat.lt_irrefl _ (hs.fits.loaded_lt _ hl)
    exact hs.readers.acquire ht (fun hp => Nat.lt_irrefl _ hp.1) (lt_succ_and hnot)

/-- A writer stores. -/
theorem store (hs : h.Shared c w r) {p : ℕ} (ht : w t = some p)
    (hlap : N ≤ p → h.loaded (p - N) = true) (x : α) :
    (h.store p x).Shared (c.store (p % N) x) (Function.update w t none) r where
  fits := by
    obtain ⟨hp, hnone⟩ := (hs.writers.iff p).mp ⟨t, ht⟩
    refine hs.fits.store hp hnone (fun q hq => ?_) x
    rw [← hq, Nat.add_sub_cancel] at hlap
    exact hlap (Nat.le_add_left _ _)
  writers := by
    refine hs.writers.release ht fun n => ?_
    change n < h.writes ∧ (h.store p x).entry n = none ↔ _
    by_cases hnp : n = p
    · subst hnp
      rw [entry_store]
      exact ⟨fun hn => absurd hn.2 (Option.some_ne_none x), fun hn => absurd rfl hn.1⟩
    · rw [entry_store_of_ne _ x hnp]
      exact ⟨fun hn => ⟨hnp, hn⟩, fun hn => hn.2⟩
  readers := hs.readers

/-- A reader loads. -/
theorem load (hs : h.Shared c w r) {p : ℕ} (ht : r t = some p) (hstored : h.entry p ≠ none) :
    (h.load p).Shared c w (Function.update r t none) where
  fits := hs.fits.load ((hs.readers.iff p).mp ⟨t, ht⟩).1 hstored
  writers := hs.writers
  readers := by
    refine hs.readers.release ht fun n => ?_
    change n < h.reads ∧ (h.load p).loaded n = false ↔ _
    by_cases hnp : n = p
    · subst hnp
      rw [loaded_load]
      exact ⟨fun hn => absurd hn.2 (by decide), fun hn => absurd rfl hn.1⟩
    · rw [loaded_load_of_ne _ hnp]
      exact ⟨fun hn => ⟨hnp, hn⟩, fun hn => hn.2⟩

omit [DecidableEq ι] in
/-- What the writer of a number finds. -/
theorem writer (hs : h.Shared c w r) {p : ℕ} (ht : w t = some p) : p < h.writes ∧ h.entry p = none :=
  (hs.writers.iff p).mp ⟨t, ht⟩

omit [DecidableEq ι] in
/-- What the reader of a number finds. -/
theorem reader (hs : h.Shared c w r) {p : ℕ} (ht : r t = some p) :
    p < h.reads ∧ h.loaded p = false :=
  (hs.readers.iff p).mp ⟨t, ht⟩

omit [DecidableEq ι] in
/-- A reader loads what was stored with its number. -/
theorem cell (hs : h.Shared c w r) {p : ℕ} (ht : r t = some p) {x : α} (hx : h.entry p = some x) :
    c.cell (p % N) = x :=
  hs.fits.cell p x hx (hs.reader ht).2

end Shared

omit [DecidableEq ι] in
/-- At rest no access is to be made. -/
theorem shared_ofRing (c : Cyclic N α) : (ofRing c).Shared c (fun _ : ι => none) (fun _ : ι => none) where
  fits := fits_ofRing c
  writers := {
    iff := fun p => ⟨fun ⟨_, hu⟩ => (by cases hu), fun hp => absurd hp.2 ((ofRing_entry c).mpr hp.1)⟩
    distinct := fun _ _ _ hu => (by cases hu) }
  readers := {
    iff := fun p => ⟨fun ⟨_, hu⟩ => (by cases hu),
      fun hp => absurd hp.1 (of_decide_eq_false hp.2)⟩
    distinct := fun _ _ _ hu => (by cases hu) }

end Tickets

end Pthabt.Lib
