import Mathlib.Data.List.Basic

/-! Regular expressions with numbered groups, matched by backtracking. `ends r s` lists the states in
which a match of `r` from `s` can end, the preferred one first, and `search` takes the first of
them at the first place that has one. What an expression matches is said by the members of `ends`;
for one without groups these are given by the text they eat. -/

namespace Pthabt.Lib

abbrev Text := List Char

/-- Characters, given by ranges that they are in or, when `negated`, are in none of. -/
structure CharSet where
  negated : Bool
  ranges : List (Char × Char)
  deriving DecidableEq

namespace CharSet

def has (s : CharSet) (c : Char) : Bool :=
  s.negated ^^ s.ranges.any fun r => decide (r.1 ≤ c ∧ c ≤ r.2)

def single (c : Char) : CharSet := ⟨false, [(c, c)]⟩

/-- `.` -/
def any : CharSet := ⟨true, [('\n', '\n')]⟩

/-- `\d` -/
def digit : CharSet := ⟨false, [('0', '9')]⟩

/-- `\w` -/
def word : CharSet := ⟨false, [('a', 'z'), ('A', 'Z'), ('0', '9'), ('_', '_')]⟩

/-- `\s` -/
def space : CharSet := ⟨false, [(' ', ' '), ('\t', '\r')]⟩

def compl (s : CharSet) : CharSet := { s with negated := !s.negated }

def add (s : CharSet) (lo hi : Char) : CharSet := { s with ranges := (lo, hi) :: s.ranges }

/-- At least `lo` characters, all in the set. -/
def Run (s : CharSet) (lo : ℕ) (w : Text) : Prop := lo ≤ w.length ∧ ∀ c ∈ w, s.has c = true

instance (s : CharSet) (lo : ℕ) (w : Text) : Decidable (s.Run lo w) :=
  decidable_of_iff (lo ≤ w.length ∧ w.all s.has = true) (and_congr_right' List.all_eq_true)

@[simp] theorem has_single (c d : Char) : (single c).has d = true ↔ d = c := by
  simp only [has, single, List.any_cons, List.any_nil, Bool.or_false, Bool.false_xor,
    decide_eq_true_eq]
  exact ⟨fun h => Char.le_antisymm h.2 h.1, fun h => h ▸ ⟨Char.le_refl d, Char.le_refl d⟩⟩

end CharSet

inductive Regex where
  | empty
  | set (s : CharSet)
  | start
  | finish
  | seq (r q : Regex)
  | alt (r q : Regex)
  | rep (lazy : Bool) (lo : ℕ) (hi : Option ℕ) (r : Regex)
  | group (n : Option ℕ) (r : Regex)
  deriving DecidableEq

namespace Regex

/-- Where a match is, and what its groups hold, the latest first. -/
structure State where
  pos : ℕ
  rest : Text
  groups : List (ℕ × Text)
  deriving DecidableEq

def State.group (n : ℕ) (s : State) : Option Text := s.groups.lookup n

/-- The text read since `s` becomes group `n`; brackets without a number make none. -/
def State.close (n : Option ℕ) (s t : State) : State :=
  match n with
  | none => t
  | some n => { t with groups := (n, s.rest.take (t.pos - s.pos)) :: t.groups }

/-- `n` matches in a row. -/
def times (m : State → List State) : ℕ → State → List State
  | 0, s => [s]
  | n + 1, s => (m s).flatMap (times m n)

/-- At most `n` matches in a row that each read something. -/
def upTo (m : State → List State) (lazy : Bool) : ℕ → State → List State
  | 0, s => [s]
  | n + 1, s =>
    let more := ((m s).filter fun t => t.rest.length < s.rest.length).flatMap (upTo m lazy n)
    if lazy then s :: more else more ++ [s]

/-- How many matches can follow the first `lo` of a repetition. -/
def room (lo : ℕ) (hi : Option ℕ) (s : State) : ℕ :=
  match hi with
  | none => s.rest.length
  | some h => h - lo

def ends : Regex → State → List State
  | .empty, s => [s]
  | .set c, s =>
    match s.rest with
    | [] => []
    | d :: rest => if c.has d then [⟨s.pos + 1, rest, s.groups⟩] else []
  | .start, s => if s.pos = 0 then [s] else []
  | .finish, s => if s.rest = [] ∨ s.rest = ['\n'] then [s] else []
  | .seq r q, s => (ends r s).flatMap (ends q)
  | .alt r q, s => ends r s ++ ends q s
  | .rep lazy lo hi r, s =>
    (times (ends r) lo s).flatMap fun t => upTo (ends r) lazy (room lo hi t) t
  | .group n r, s => (ends r s).map (s.close n)

/-- The preferred match at the first place from `pos` on that has one. -/
def searchFrom (r : Regex) (pos : ℕ) : Text → Option State
  | [] => (ends r ⟨pos, [], []⟩).head?
  | c :: text => (ends r ⟨pos, c :: text, []⟩).head?.or (searchFrom r (pos + 1) text)

def search (r : Regex) (text : Text) : Option State := searchFrom r 0 text

/-! ### What a search finds -/

theorem searchFrom_some {r : Regex} {text : Text} {pos : ℕ} {t : State}
    (h : searchFrom r pos text = some t) :
    ∃ pre post, text = pre ++ post ∧ t ∈ ends r ⟨pos + pre.length, post, []⟩ := by
  induction text generalizing pos with
  | nil => exact ⟨[], [], rfl, List.mem_of_mem_head? h⟩
  | cons c text ih =>
    rcases Option.or_eq_some_iff.mp h with h | ⟨-, h⟩
    · exact ⟨[], c :: text, rfl, List.mem_of_mem_head? h⟩
    · obtain ⟨pre, post, htext, ht⟩ := ih h
      refine ⟨c :: pre, post, by rw [htext, List.cons_append], ?_⟩
      rwa [List.length_cons, Nat.add_comm pre.length, ← Nat.add_assoc]

theorem searchFrom_isSome {r : Regex} {pre post : Text} {pos : ℕ} {t : State}
    (h : t ∈ ends r ⟨pos + pre.length, post, []⟩) : (searchFrom r pos (pre ++ post)).isSome := by
  induction pre generalizing pos with
  | nil =>
    have hhead : (ends r ⟨pos, post, []⟩).head?.isSome := by
      rw [List.isSome_head?]
      exact List.ne_nil_of_mem h
    cases post with
    | nil => exact hhead
    | cons c post =>
      rw [List.nil_append, searchFrom, Option.isSome_or, hhead, Bool.true_or]
  | cons c pre ih =>
    rw [List.cons_append, searchFrom, Option.isSome_or, ih, Bool.or_true]
    rwa [Nat.add_assoc, Nat.add_comm 1, ← List.length_cons]

theorem search_some {r : Regex} {text : Text} {t : State} (h : search r text = some t) :
    ∃ pre post, text = pre ++ post ∧ t ∈ ends r ⟨pre.length, post, []⟩ := by
  obtain ⟨pre, post, htext, ht⟩ := searchFrom_some h
  exact ⟨pre, post, htext, by rwa [Nat.zero_add] at ht⟩

/-- A search finds something exactly where the expression matches a part of the text. -/
theorem search_isSome_iff {r : Regex} {text : Text} :
    (search r text).isSome ↔
      ∃ pre post t, text = pre ++ post ∧ t ∈ ends r ⟨pre.length, post, []⟩ := by
  constructor
  · intro h
    obtain ⟨t, ht⟩ := Option.isSome_iff_exists.mp h
    obtain ⟨pre, post, htext, hm⟩ := search_some ht
    exact ⟨pre, post, t, htext, hm⟩
  · rintro ⟨pre, post, t, rfl, ht⟩
    exact searchFrom_isSome (by rwa [Nat.zero_add])

/-! ### Text that is eaten -/

/-- `t` is `s` after the text `w`, with the groups `g` added. -/
structure Eats (w : Text) (g : List (ℕ × Text)) (s t : State) : Prop where
  rest : s.rest = w ++ t.rest
  pos : t.pos = s.pos + w.length
  groups : t.groups = g ++ s.groups

section Eats

variable {s t u : State} {v w : Text} {g h : List (ℕ × Text)}

theorem eats_nil : Eats [] [] s t ↔ t = s := by
  constructor
  · intro h
    obtain ⟨hrest, hpos, hgroups⟩ := h
    cases s
    cases t
    simp_all
  · rintro rfl
    exact ⟨rfl, rfl, rfl⟩

/-- Two texts are eaten one after the other. -/
theorem eats_append : Eats (w ++ v) (h ++ g) s u ↔ ∃ t, Eats w g s t ∧ Eats v h t u := by
  constructor
  · intro he
    refine ⟨⟨s.pos + w.length, v ++ u.rest, g ++ s.groups⟩, ⟨?_, rfl, rfl⟩, ⟨rfl, ?_, ?_⟩⟩
    · rw [he.rest, List.append_assoc]
    · rw [he.pos, List.length_append, Nat.add_assoc]
    · rw [he.groups, List.append_assoc]
  · rintro ⟨t, hw, hv⟩
    refine ⟨?_, ?_, ?_⟩
    · rw [hw.rest, hv.rest, List.append_assoc]
    · rw [hv.pos, hw.pos, List.length_append, Nat.add_assoc]
    · rw [hv.groups, hw.groups, List.append_assoc]

theorem eats_cons {d : Char} : Eats (d :: w) [] s u ↔ ∃ t, Eats [d] [] s t ∧ Eats w [] t u :=
  eats_append (w := [d]) (g := []) (h := [])

/-- The bracket of a group around eaten text adds it. -/
theorem close_eats {n : ℕ} :
    (∃ t, Eats w g s t ∧ s.close (some n) t = u) ↔ Eats w ((n, w) :: g) s u := by
  constructor
  · rintro ⟨t, ht, rfl⟩
    refine ⟨ht.rest, ht.pos, ?_⟩
    rw [State.close, ht.pos, Nat.add_sub_cancel_left, ht.rest, List.take_left, List.cons_append,
      ht.groups]
  · intro hu
    refine ⟨⟨u.pos, u.rest, g ++ s.groups⟩, ⟨hu.rest, hu.pos, rfl⟩, ?_⟩
    rw [State.close, hu.pos, Nat.add_sub_cancel_left, hu.rest, List.take_left, ← List.cons_append,
      ← hu.groups, ← hu.pos]

theorem mem_set {c : CharSet} : t ∈ ends (.set c) s ↔ ∃ d, c.has d = true ∧ Eats [d] [] s t := by
  cases hs : s.rest with
  | nil =>
    simp only [ends, hs, List.not_mem_nil, false_iff]
    rintro ⟨d, -, h⟩
    have hrest := h.rest
    rw [hs] at hrest
    cases hrest
  | cons d rest =>
    simp only [ends, hs]
    constructor
    · intro h
      split_ifs at h with hd
      · rw [List.mem_singleton.mp h]
        exact ⟨d, hd, hs, rfl, rfl⟩
      · cases h
    · rintro ⟨e, he, hrest, hpos, hgroups⟩
      rw [hs] at hrest
      obtain ⟨rfl, rfl⟩ := List.cons.inj hrest
      rw [if_pos he, List.mem_singleton]
      cases t
      simp_all

theorem mem_times_set {c : CharSet} {n : ℕ} :
    t ∈ times (ends (.set c)) n s ↔
      ∃ w : Text, w.length = n ∧ (∀ d ∈ w, c.has d = true) ∧ Eats w [] s t := by
  induction n generalizing s with
  | zero => simp [times, List.length_eq_zero_iff, eats_nil]
  | succ n ih =>
    rw [times, List.mem_flatMap]
    constructor
    · rintro ⟨u, hu, ht⟩
      obtain ⟨d, hd, hsu⟩ := mem_set.mp hu
      obtain ⟨w, rfl, hw, hut⟩ := ih.mp ht
      exact ⟨d :: w, rfl, List.forall_mem_cons.mpr ⟨hd, hw⟩, eats_cons.mpr ⟨u, hsu, hut⟩⟩
    · rintro ⟨_ | ⟨d, w⟩, hlen, hw, hst⟩
      · cases hlen
      · obtain ⟨hd, hw⟩ := List.forall_mem_cons.mp hw
        obtain ⟨u, hsu, hut⟩ := eats_cons.mp hst
        exact ⟨u, mem_set.mpr ⟨d, hd, hsu⟩, ih.mpr ⟨w, Nat.succ.inj hlen, hw, hut⟩⟩

theorem mem_upTo_set {c : CharSet} {lazy : Bool} {n : ℕ} :
    t ∈ upTo (ends (.set c)) lazy n s ↔
      ∃ w : Text, w.length ≤ n ∧ (∀ d ∈ w, c.has d = true) ∧ Eats w [] s t := by
  induction n generalizing s with
  | zero => simp [upTo, List.length_eq_zero_iff, eats_nil]
  | succ n ih =>
    have hmem : t ∈ upTo (ends (.set c)) lazy (n + 1) s ↔
        t = s ∨ ∃ u ∈ ends (.set c) s, u.rest.length < s.rest.length ∧
          t ∈ upTo (ends (.set c)) lazy n u := by
      rw [upTo]
      cases lazy <;> simp [List.mem_flatMap, and_assoc, or_comm]
    rw [hmem]
    constructor
    · rintro (rfl | ⟨u, hu, -, ht⟩)
      · exact ⟨[], Nat.zero_le _, List.forall_mem_nil _, eats_nil.mpr rfl⟩
      · obtain ⟨d, hd, hsu⟩ := mem_set.mp hu
        obtain ⟨w, hlen, hw, hut⟩ := ih.mp ht
        exact ⟨d :: w, Nat.succ_le_succ hlen, List.forall_mem_cons.mpr ⟨hd, hw⟩,
          eats_cons.mpr ⟨u, hsu, hut⟩⟩
    · rintro ⟨_ | ⟨d, w⟩, hlen, hw, hst⟩
      · exact .inl (eats_nil.mp hst)
      · obtain ⟨hd, hw⟩ := List.forall_mem_cons.mp hw
        obtain ⟨u, hsu, hut⟩ := eats_cons.mp hst
        refine .inr ⟨u, mem_set.mpr ⟨d, hd, hsu⟩, ?_,
          ih.mpr ⟨w, Nat.le_of_succ_le_succ hlen, hw, hut⟩⟩
        rw [hsu.rest]
        exact Nat.lt_succ_self _

end Eats

/-! ### Matches -/

/-- Expressions one after the other. -/
def concat : List Regex → Regex
  | [] => .empty
  | r :: rs => .seq r (concat rs)

/-- The character itself. -/
def lit (c : Char) : Regex := .set (.single c)

/-- `r` matches the texts and groups of which `P` holds, wherever the text stands. -/
def Matches (r : Regex) (P : Text → List (ℕ × Text) → Prop) : Prop :=
  ∀ s t, t ∈ ends r s ↔ ∃ w g, P w g ∧ Eats w g s t

/-- A text of `P` and one of `Q` in a row. -/
def Then (P Q : Text → List (ℕ × Text) → Prop) (w : Text) (g : List (ℕ × Text)) : Prop :=
  ∃ v h v' h', P v h ∧ Q v' h' ∧ w = v ++ v' ∧ g = h' ++ h

section Matches

variable {r q : Regex} {rs qs : List Regex} {P Q : Text → List (ℕ × Text) → Prop}

theorem Matches.congr (hr : Matches r P) (hPQ : ∀ w g, P w g ↔ Q w g) : Matches r Q := by
  intro s t
  simp only [hr s t, hPQ]

theorem matches_nil : Matches (concat []) fun w g => w = [] ∧ g = [] := by
  intro s t
  constructor
  · intro h
    exact ⟨[], [], ⟨rfl, rfl⟩, eats_nil.mpr (List.mem_singleton.mp h)⟩
  · rintro ⟨_, _, ⟨rfl, rfl⟩, h⟩
    exact List.mem_singleton.mpr (eats_nil.mp h)

theorem Matches.seq (hr : Matches r P) (hq : Matches q Q) : Matches (.seq r q) (Then P Q) := by
  intro s u
  rw [ends, List.mem_flatMap]
  constructor
  · rintro ⟨t, ht, hu⟩
    obtain ⟨v, h, hv, hst⟩ := (hr s t).mp ht
    obtain ⟨v', h', hv', htu⟩ := (hq t u).mp hu
    exact ⟨_, _, ⟨v, h, v', h', hv, hv', rfl, rfl⟩, eats_append.mpr ⟨t, hst, htu⟩⟩
  · rintro ⟨_, _, ⟨v, h, v', h', hv, hv', rfl, rfl⟩, hsu⟩
    obtain ⟨t, hst, htu⟩ := eats_append.mp hsu
    exact ⟨t, (hr s t).mpr ⟨v, h, hv, hst⟩, (hq t u).mpr ⟨v', h', hv', htu⟩⟩

theorem Matches.group (hr : Matches r P) (n : ℕ) :
    Matches (.group (some n) r) fun w g => ∃ h, P w h ∧ g = (n, w) :: h := by
  intro s u
  rw [ends, List.mem_map]
  constructor
  · rintro ⟨t, ht, hu⟩
    obtain ⟨w, h, hw, hst⟩ := (hr s t).mp ht
    exact ⟨w, _, ⟨h, hw, rfl⟩, close_eats.mp ⟨t, hst, hu⟩⟩
  · rintro ⟨w, _, ⟨h, hw, rfl⟩, hsu⟩
    obtain ⟨t, hst, hu⟩ := close_eats.mpr hsu
    exact ⟨t, (hr s t).mpr ⟨w, h, hw, hst⟩, hu⟩

theorem Matches.append (hr : Matches (concat rs) P) (hq : Matches (concat qs) Q) :
    Matches (concat (rs ++ qs)) (Then P Q) := by
  have hmem : ∀ s u, u ∈ ends (concat (rs ++ qs)) s ↔ u ∈ ends (.seq (concat rs) (concat qs)) s := by
    clear hr
    induction rs with
    | nil => simp [concat, ends]
    | cons r rs ih =>
      intro s u
      have ih := fun t => ih t u
      simp only [ends, List.mem_flatMap] at ih
      simp only [List.cons_append, concat, ends, List.mem_flatMap, ih]
      constructor
      · rintro ⟨t, ht, v, hv, hu⟩
        exact ⟨v, ⟨t, ht, hv⟩, hu⟩
      · rintro ⟨v, ⟨t, ht, hv⟩, hu⟩
        exact ⟨t, ht, v, hv, hu⟩
  intro s u
  rw [hmem]
  exact hr.seq hq s u

/-- A single item. -/
theorem Matches.item (hr : Matches r P) : Matches (concat [r]) P := by
  intro s t
  rw [← hr s t]
  simp [concat, ends]

/-- Plain text matches itself. -/
theorem matches_lit (w : Text) : Matches (concat (w.map lit)) fun v g => v = w ∧ g = [] := by
  intro s t
  simp only [and_assoc, exists_and_left, exists_eq_left]
  induction w generalizing s with
  | nil => exact List.mem_singleton.trans eats_nil.symm
  | cons c w ih =>
    rw [eats_cons, List.map_cons, concat, ends, List.mem_flatMap]
    simp only [ih, lit, mem_set, CharSet.has_single, exists_eq_left]

/-- A repetition of one set of characters, with no upper limit. -/
theorem matches_rep (c : CharSet) (lazy : Bool) (lo : ℕ) :
    Matches (.rep lazy lo none (.set c)) fun w g => c.Run lo w ∧ g = [] := by
  intro s t
  rw [ends, List.mem_flatMap]
  constructor
  · rintro ⟨u, hu, ht⟩
    obtain ⟨v, rfl, hv, hsu⟩ := mem_times_set.mp hu
    obtain ⟨w, -, hw, hut⟩ := mem_upTo_set.mp ht
    refine ⟨v ++ w, [], ⟨⟨?_, List.forall_mem_append.mpr ⟨hv, hw⟩⟩, rfl⟩,
      eats_append.mpr ⟨u, hsu, hut⟩⟩
    rw [List.length_append]
    exact Nat.le_add_right _ _
  · rintro ⟨w, _, ⟨⟨hlo, hw⟩, rfl⟩, hst⟩
    rw [← List.take_append_drop lo w] at hw hst
    obtain ⟨hv, hw⟩ := List.forall_mem_append.mp hw
    obtain ⟨u, hsu, hut⟩ := (eats_append (g := []) (h := [])).mp hst
    refine ⟨u, mem_times_set.mpr ⟨_, List.length_take_of_le hlo, hv, hsu⟩,
      mem_upTo_set.mpr ⟨_, ?_, hw, hut⟩⟩
    change _ ≤ u.rest.length
    rw [hut.rest, List.length_append]
    exact Nat.le_add_right _ _

/-! An item after others: its text and its group are put behind theirs. -/

theorem Matches.appendLit (hr : Matches (concat rs) P) (w : Text) :
    Matches (concat (rs ++ w.map lit)) fun u g => ∃ v, P v g ∧ u = v ++ w := by
  refine (hr.append (matches_lit w)).congr fun u g => ⟨?_, ?_⟩
  · rintro ⟨v, h, _, _, hv, ⟨rfl, rfl⟩, rfl, rfl⟩
    exact ⟨v, hv, rfl⟩
  · rintro ⟨v, hv, rfl⟩
    exact ⟨v, g, w, [], hv, ⟨rfl, rfl⟩, rfl, rfl⟩

theorem Matches.appendRep (hr : Matches (concat rs) P) (c : CharSet) (lazy : Bool) (lo : ℕ) :
    Matches (concat (rs ++ [.rep lazy lo none (.set c)])) fun u g =>
      ∃ v x, P v g ∧ c.Run lo x ∧ u = v ++ x := by
  refine (hr.append (matches_rep c lazy lo).item).congr fun u g => ⟨?_, ?_⟩
  · rintro ⟨v, h, x, _, hv, ⟨hx, rfl⟩, rfl, rfl⟩
    exact ⟨v, x, hv, hx, rfl⟩
  · rintro ⟨v, x, hv, hx, rfl⟩
    exact ⟨v, g, x, [], hv, ⟨hx, rfl⟩, rfl, rfl⟩

theorem Matches.appendGroup (hr : Matches (concat rs) P) {q : Regex} {Q : Text → Prop}
    (hq : Matches q fun w g => Q w ∧ g = []) (n : ℕ) :
    Matches (concat (rs ++ [.group (some n) q])) fun u g =>
      ∃ v h x, P v h ∧ Q x ∧ u = v ++ x ∧ g = (n, x) :: h := by
  refine (hr.append (hq.group n).item).congr fun u g => ⟨?_, ?_⟩
  · rintro ⟨v, h, x, _, hv, ⟨_, ⟨hx, rfl⟩, rfl⟩, rfl, rfl⟩
    exact ⟨v, h, x, hv, hx, rfl, rfl⟩
  · rintro ⟨v, h, x, hv, hx, rfl, rfl⟩
    exact ⟨v, h, x, _, hv, ⟨_, ⟨hx, rfl⟩, rfl⟩, rfl, rfl⟩

/-! ### Searches for what is matched -/

variable {text : Text} {t : State}

theorem Matches.of_search (hr : Matches r P) (h : search r text = some t) :
    ∃ w, P w t.groups ∧ w <:+: text := by
  obtain ⟨pre, post, rfl, ht⟩ := search_some h
  obtain ⟨w, g, hw, he⟩ := (hr _ t).mp ht
  refine ⟨w, ?_, pre, t.rest, ?_⟩
  · rwa [he.groups, List.append_nil]
  · rw [List.append_assoc, ← he.rest]

theorem Matches.search_isSome (hr : Matches r P) :
    (search r text).isSome ↔ ∃ w g, P w g ∧ w <:+: text := by
  constructor
  · intro h
    obtain ⟨t, ht⟩ := Option.isSome_iff_exists.mp h
    obtain ⟨w, hw, hin⟩ := hr.of_search ht
    exact ⟨w, t.groups, hw, hin⟩
  · rintro ⟨w, g, hw, pre, post, rfl⟩
    refine search_isSome_iff.mpr ⟨pre, w ++ post, ⟨pre.length + w.length, post, g⟩, ?_, ?_⟩
    · rw [List.append_assoc]
    · exact (hr _ _).mpr ⟨w, g, hw, rfl, rfl, (List.append_nil g).symm⟩

/-- After `^` a match is at the start of the text. -/
theorem mem_start_seq {u s : State} : u ∈ ends (.seq .start r) s ↔ s.pos = 0 ∧ u ∈ ends r s := by
  rw [ends, List.mem_flatMap, ends]
  split_ifs with h <;> simp [h]

theorem Matches.of_search_start (hr : Matches r P) (h : search (.seq .start r) text = some t) :
    ∃ w, P w t.groups ∧ w <+: text := by
  obtain ⟨pre, post, rfl, ht⟩ := search_some h
  obtain ⟨hpre, ht⟩ := mem_start_seq.mp ht
  obtain ⟨w, g, hw, he⟩ := (hr _ t).mp ht
  rw [List.eq_nil_of_length_eq_zero hpre]
  refine ⟨w, ?_, t.rest, he.rest.symm⟩
  rwa [he.groups, List.append_nil]

end Matches

end Regex

end Pthabt.Lib
