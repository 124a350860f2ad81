import Pthabt.Lib.Run
import Mathlib.Logic.Function.Basic

/-! The conditions of `pthread.c`. `cond_map` gives the `ABT_cond` of a condition, and only
`pthread_cond_wait` creates the one of a statically initialised condition; the other
functions find a null pointer. `pthread_cond_destroy` frees an `ABT_cond` and leaves its
address in the map, where a later static condition at the same address finds it. -/

namespace Pthabt.Pthread

open Run

/-- An `ABT_cond`: the address and the number of the condition it was created for, and whether it
was freed. -/
structure AbtCond where
  cond : ℕ
  number : ℕ
  freed : Bool
  deriving DecidableEq

/-- What the callers did at one address: the number of conditions that began there; whether the last
one is not destroyed, was begun by `pthread_cond_init`, and has been waited on; and whether one of
the earlier ones was begun or waited on. -/
structure Use where
  begun : ℕ
  live : Bool
  initialised : Bool
  waited : Bool
  earlier : Bool
  deriving DecidableEq

/-- A lookup `cond_map[cond]` for a condition, and the `ABT_cond` that it gave. -/
structure Lookup where
  cond : ℕ
  number : ℕ
  found : Option AbtCond
  deriving DecidableEq

/-- `cond_map`, what its pointers point to, and how many of those were allocated; the callers' use of
each address, and the lookups so far. -/
structure Conds where
  condMap : ℕ → Option (Option ℕ)
  abtCond : ℕ → AbtCond
  created : ℕ
  use : ℕ → Use
  lookups : List Lookup

namespace Conds

/-- No condition has begun. -/
def empty : Conds :=
  ⟨fun _ => none, fun _ => ⟨0, 0, true⟩, 0, fun _ => ⟨0, false, false, false, false⟩, []⟩

def setUse (s : Conds) (a : ℕ) (u : Use) : Conds := { s with use := Function.update s.use a u }

/-- A new condition at address `a`. -/
def start (s : Conds) (a : ℕ) (initialised : Bool) : Conds :=
  s.setUse a
    { begun := (s.use a).begun + 1
      live := true
      initialised := initialised
      waited := false
      earlier := (s.use a).earlier || (s.use a).initialised || (s.use a).waited }

/-- `pthread_cond_init`. -/
def condInit (s : Conds) (a : ℕ) : Conds :=
  { s with
    condMap := Function.update s.condMap a (some (some s.created))
    abtCond := Function.update s.abtCond s.created ⟨a, (s.use a).begun, false⟩
    created := s.created + 1 }

/-- `cond_map[cond]`, which inserts a null pointer for a key that is not there. -/
def get (s : Conds) (a : ℕ) : Conds × Option ℕ :=
  match s.condMap a with
  | some p => (s, p)
  | none => ({ s with condMap := Function.update s.condMap a (some none) }, none)

def note (s : Conds) (a : ℕ) (p : Option ℕ) : Conds :=
  { s with lookups := s.lookups ++ [⟨a, (s.use a).begun, p.map s.abtCond⟩] }

/-- `*(cond_map[cond])`. -/
def deref (s : Conds) (a : ℕ) : Outcome Conds :=
  match s.get a with
  | (s, some x) => .ok (s.note a (some x))
  | (_, none) => .fault

/-- `ABT_cond_free` on a pointer of the map. -/
def free (s : Conds) (p : Option ℕ) : Conds :=
  match p with
  | some x => { s with abtCond := Function.update s.abtCond x { s.abtCond x with freed := true } }
  | none => s

/-- `pthread_cond_wait`, up to the call of `ABT_cond_wait`. -/
def condWait (s : Conds) (a : ℕ) : Outcome Conds :=
  let s := if s.condMap a = none then s.condInit a else s
  (s.setUse a { s.use a with waited := true }).deref a

/-- `pthread_cond_destroy`. -/
def condDestroy (s : Conds) (a : ℕ) : Conds :=
  let (s, p) := s.get a
  ((s.note a p).free p).setUse a { s.use a with live := false }

end Conds

/-- The calls; `staticInit` is a condition that begins as `PTHREAD_COND_INITIALIZER`. -/
inductive CondOp where
  | init (a : ℕ)
  | staticInit (a : ℕ)
  | signal (a : ℕ)
  | wait (a : ℕ)
  | timedwait (a : ℕ)
  | destroy (a : ℕ)

def CondOp.step : CondOp → Conds → Outcome Conds
  | .init a, s => .ok ((s.start a true).condInit a)
  | .staticInit a, s => .ok (s.start a false)
  | .signal a, s => s.deref a
  | .wait a, s => s.condWait a
  | .timedwait a, s => s.deref a
  | .destroy a, s => .ok (s.condDestroy a)

/-- A condition is used between its beginning and its destruction. -/
def CondOp.Admissible : CondOp → Conds → Prop
  | .init _, _ | .staticInit _, _ => True
  | .signal a, s | .wait a, s | .timedwait a, s | .destroy a, s => (s.use a).live = true

/-- The lookup gave the `ABT_cond` of the condition, and that is not freed. -/
def Lookup.Good (l : Lookup) : Prop := l.found = some ⟨l.cond, l.number, false⟩

instance decidableGood (l : Lookup) : Decidable l.Good := inferInstanceAs (Decidable (_ = _))

def LookUpsGood (s : Conds) : Prop := ∀ l ∈ s.lookups, l.Good

/-- The condition has an `ABT_cond` of its own: it was begun by `pthread_cond_init`, or waited on at
an address that had none before. -/
def Use.Own (u : Use) : Prop := u.initialised = true ∨ u.waited = true ∧ u.earlier = false

/-- The call finds the condition with its own `ABT_cond`, or is a wait that creates it. -/
def CondOp.Prepared : CondOp → Conds → Prop
  | .init _, _ | .staticInit _, _ => True
  | .wait a, s => (s.use a).initialised = true ∨ (s.use a).earlier = false
  | .signal a, s | .timedwait a, s | .destroy a, s => (s.use a).Own

/-! ### Invariant -/

/-- The entry of the map at one address: none; that of the last condition; or that of an earlier
one. -/
inductive Entry (s : Conds) (a : ℕ) : Prop where
  | absent (initialised : (s.use a).initialised = false) (waited : (s.use a).waited = false)
      (earlier : (s.use a).earlier = false) (map : s.condMap a = none)
  | own (use : (s.use a).Own) (x : ℕ) (lt : x < s.created) (map : s.condMap a = some (some x))
      (abtCond : s.abtCond x = ⟨a, (s.use a).begun, !(s.use a).live⟩)
  | stale (initialised : (s.use a).initialised = false) (earlier : (s.use a).earlier = true) (x : ℕ)
      (lt : x < s.created) (map : s.condMap a = some (some x)) (cond : (s.abtCond x).cond = a)
      (number : (s.abtCond x).number < (s.use a).begun)

structure CondInv (s : Conds) : Prop where
  good : LookUpsGood s
  entry : ∀ a, Entry s a

theorem empty_inv : CondInv .empty :=
  ⟨fun _ h => (by cases h), fun _ => .absent rfl rfl rfl rfl⟩

section Entries

variable {s : Conds} {a : ℕ}

/-- An entry stays what it is under steps that are about other conditions. -/
theorem Entry.frame {s' : Conds} (h : Entry s a) (huse : s'.use a = s.use a)
    (hmap : s'.condMap a = s.condMap a) (hcreated : s.created ≤ s'.created)
    (habt : ∀ x < s.created, (s.abtCond x).cond = a → s'.abtCond x = s.abtCond x) : Entry s' a := by
  cases h with
  | absent hi hw he hm => exact .absent (huse ▸ hi) (huse ▸ hw) (huse ▸ he) (hmap.trans hm)
  | own hown x hx hm hc =>
    have hsame := habt x hx (by rw [hc])
    exact .own (huse ▸ hown) x (by omega) (hmap.trans hm) (by rw [hsame, huse, hc])
  | stale hi he x hx hm hc hn =>
    have hsame := habt x hx hc
    exact .stale (huse ▸ hi) (huse ▸ he) x (by omega) (hmap.trans hm) (by rw [hsame, hc])
      (by rw [hsame, huse]; exact hn)

/-- A condition with an `ABT_cond` of its own. -/
theorem Entry.of_own (h : Entry s a) (hown : (s.use a).Own) : ∃ x < s.created,
    s.condMap a = some (some x) ∧ s.abtCond x = ⟨a, (s.use a).begun, !(s.use a).live⟩ := by
  cases h with
  | absent hi hw he hm =>
    rcases hown with hown | hown
    · rw [hi] at hown; cases hown
    · rw [hw] at hown; cases hown.1
  | own _ x hx hm hc => exact ⟨x, hx, hm, hc⟩
  | stale hi he =>
    rcases hown with hown | hown
    · rw [hi] at hown; cases hown
    · rw [he] at hown; cases hown.2

/-- A condition without one: its address is not in the map, or has that of an earlier one. -/
theorem Entry.of_not_own (h : Entry s a) (hown : ¬ (s.use a).Own) :
    s.condMap a = none ∨
      ∃ x, s.condMap a = some (some x) ∧ (s.abtCond x).number < (s.use a).begun := by
  cases h with
  | absent hi hw he hm => exact Or.inl hm
  | own h => exact absurd h hown
  | stale hi he x hx hm hc hn => exact Or.inr ⟨x, hm, hn⟩

@[simp] theorem start_use_self (s : Conds) (a : ℕ) (b : Bool) : (s.start a b).use a =
    ⟨(s.use a).begun + 1, true, b, false,
      (s.use a).earlier || (s.use a).initialised || (s.use a).waited⟩ :=
  Function.update_self ..

theorem setUse_of_ne (s : Conds) (u : Use) {a b : ℕ} (h : b ≠ a) : (s.setUse a u).use b = s.use b :=
  Function.update_of_ne h ..

@[simp] theorem condInit_map_self (s : Conds) (a : ℕ) :
    (s.condInit a).condMap a = some (some s.created) := Function.update_self ..

@[simp] theorem condInit_abtCond_self (s : Conds) (a : ℕ) :
    (s.condInit a).abtCond s.created = ⟨a, (s.use a).begun, false⟩ := Function.update_self ..

/-- Other entries after the use of one address was changed. -/
theorem Entry.setUse_of_ne {u : Use} {b : ℕ} (h : Entry s b) (hb : b ≠ a) :
    Entry (s.setUse a u) b :=
  h.frame (Pthread.setUse_of_ne s u hb) rfl (Nat.le_refl _) fun _ _ _ => rfl

/-- Other entries after a `pthread_cond_init`. -/
theorem Entry.condInit_of_ne {b : ℕ} (h : Entry s b) (hb : b ≠ a) : Entry (s.condInit a) b :=
  h.frame rfl (Function.update_of_ne hb ..) (Nat.le_succ _) fun _ hx _ =>
    Function.update_of_ne (Nat.ne_of_lt hx) ..

/-- The entry at the address of a new static condition. -/
theorem Entry.start_static (h : Entry s a) : Entry (s.start a false) a := by
  cases h with
  | absent hi hw he hm =>
    refine .absent ?_ ?_ ?_ hm <;> rw [start_use_self]
    simp only [hi, hw, he, Bool.or_self]
  | own hown x hx hm hc =>
    refine .stale (by rw [start_use_self]) ?_ x hx hm ?_ ?_
    · rw [start_use_self]
      rcases hown with hown | ⟨hown, -⟩ <;> simp [hown]
    · change (s.abtCond x).cond = a
      rw [hc]
    · change (s.abtCond x).number < _
      rw [start_use_self, hc]
      exact Nat.lt_succ_self _
  | stale hi he x hx hm hc hn =>
    refine .stale (by rw [start_use_self]) ?_ x hx hm hc ?_
    · simp [he]
    · change (s.abtCond x).number < _
      rw [start_use_self]
      exact Nat.lt_succ_of_lt hn

/-- A condition that is in use gets an `ABT_cond`. -/
theorem Entry.condInit_own {s : Conds} {a : ℕ} (hown : (s.use a).Own) (hlive : (s.use a).live = true) :
    Entry (s.condInit a) a := by
  refine .own hown s.created (Nat.lt_succ_self _) (condInit_map_self s a) ?_
  rw [condInit_abtCond_self]
  change _ = (⟨a, (s.use a).begun, !(s.use a).live⟩ : AbtCond)
  rw [hlive]
  rfl

end Entries

/-! ### Steps -/

section Steps

variable {s : Conds} {a : ℕ}

theorem get_of_some {p : Option ℕ} (h : s.condMap a = some p) : s.get a = (s, p) := by
  rw [Conds.get, h]

theorem get_of_none (h : s.condMap a = none) : (s.get a).2 = none := by
  rw [Conds.get, h]

/-- A lookup that is good keeps the invariant. -/
theorem CondInv.note (h : CondInv s) {p : Option ℕ}
    (hp : p.map s.abtCond = some ⟨a, (s.use a).begun, false⟩) : CondInv (s.note a p) := by
  refine ⟨fun l hl => ?_, fun b => (h.entry b).frame rfl rfl (Nat.le_refl _) fun _ _ _ => rfl⟩
  rcases List.mem_append.mp hl with hl | hl
  · exact h.good l hl
  · obtain rfl := List.mem_singleton.mp hl
    exact hp

/-- `*(cond_map[cond])` on a condition with its own `ABT_cond`. -/
theorem CondInv.deref (h : CondInv s) (hlive : (s.use a).live = true) (hown : (s.use a).Own) :
    (s.deref a).Safe CondInv := by
  obtain ⟨x, -, hm, hc⟩ := (h.entry a).of_own hown
  rw [Conds.deref, get_of_some hm]
  refine h.note ?_
  rw [Option.map_some, hc, hlive]
  rfl

/-- A lookup that is not good stays in the list. -/
theorem note_not_good {p : Option ℕ}
    (hp : p.map s.abtCond ≠ some ⟨a, (s.use a).begun, false⟩) : ¬ LookUpsGood (s.note a p) := by
  intro h
  exact hp (h _ (List.mem_append_right _ (List.mem_singleton_self _)))

theorem stale_ne {x : ℕ} (hn : (s.abtCond x).number < (s.use a).begun) :
    (some x).map s.abtCond ≠ some ⟨a, (s.use a).begun, false⟩ := by
  intro h
  rw [Option.map_some, Option.some.injEq] at h
  rw [h] at hn
  exact Nat.lt_irrefl _ hn

/-- `*(cond_map[cond])` on a condition without one. -/
theorem deref_not_good (h : Entry s a) (hown : ¬ (s.use a).Own) :
    ¬ (s.deref a).Safe LookUpsGood := by
  rcases h.of_not_own hown with hm | ⟨x, hm, hn⟩
  · have hnull := get_of_none hm
    rw [Conds.deref]
    cases hg : s.get a with
    | mk t p =>
      rw [hg] at hnull
      obtain rfl : p = none := hnull
      exact Outcome.safe_fault _
  · rw [Conds.deref, get_of_some hm]
    exact note_not_good (stale_ne hn)

/-- A new condition of `pthread_cond_init`. -/
theorem CondInv.init (h : CondInv s) (a : ℕ) : CondInv ((s.start a true).condInit a) := by
  refine ⟨h.good, fun b => ?_⟩
  by_cases hb : b = a
  · subst hb
    refine .condInit_own (Or.inl ?_) ?_ <;> rw [start_use_self]
  · exact ((h.entry b).setUse_of_ne hb).condInit_of_ne hb

theorem CondInv.staticInit (h : CondInv s) (a : ℕ) : CondInv (s.start a false) := by
  refine ⟨h.good, fun b => ?_⟩
  by_cases hb : b = a
  · subst hb
    exact (h.entry b).start_static
  · exact (h.entry b).setUse_of_ne hb

/-- The state in which `pthread_cond_wait` looks up its condition. -/
def waiting (s : Conds) (a : ℕ) : Conds :=
  let s := if s.condMap a = none then s.condInit a else s
  s.setUse a { s.use a with waited := true }

theorem condWait_eq (s : Conds) (a : ℕ) : s.condWait a = (waiting s a).deref a := rfl

theorem waiting_use (s : Conds) (a : ℕ) : (waiting s a).use a = { s.use a with waited := true } := by
  unfold waiting
  split_ifs <;> exact Function.update_self ..

theorem waiting_new (hm : s.condMap a = none) :
    waiting s a = (s.condInit a).setUse a { s.use a with waited := true } := by
  rw [waiting, if_pos hm]
  rfl

theorem waiting_old (hm : s.condMap a ≠ none) :
    waiting s a = s.setUse a { s.use a with waited := true } := by
  rw [waiting, if_neg hm]

theorem Entry.waiting_of_ne {b : ℕ} (h : Entry s b) (hb : b ≠ a) : Entry (waiting s a) b := by
  unfold Pthread.waiting
  split_ifs
  · exact (h.condInit_of_ne hb).setUse_of_ne hb
  · exact h.setUse_of_ne hb

/-- A condition that has an entry and can be waited for has its own `ABT_cond`. -/
theorem Entry.own_of_prepared (h : Entry s a) (hC : (CondOp.wait a).Prepared s)
    (hm : s.condMap a ≠ none) : (s.use a).Own := by
  cases h with
  | absent _ _ _ hnone => exact absurd hnone hm
  | own hown => exact hown
  | stale hi he =>
    rcases hC with hC | hC
    · rw [hi] at hC
      cases hC
    · rw [he] at hC
      cases hC

/-- The wait finds the `ABT_cond` of its condition, or makes it. -/
theorem Entry.waiting_self (h : Entry s a) (hlive : (s.use a).live = true)
    (hC : (CondOp.wait a).Prepared s) : Entry (waiting s a) a := by
  have huse := waiting_use s a
  have hown : ((Pthread.waiting s a).use a).Own := by
    rw [huse]
    rcases hC with hC | hC
    · exact Or.inl hC
    · exact Or.inr ⟨rfl, hC⟩
  by_cases hm : s.condMap a = none
  · refine .own hown s.created ?_ ?_ ?_
    · rw [waiting_new hm]
      exact Nat.lt_succ_self _
    · rw [waiting_new hm]
      exact condInit_map_self s a
    · rw [huse, waiting_new hm]
      change (s.condInit a).abtCond s.created = _
      rw [condInit_abtCond_self, hlive]
      rfl
  · obtain ⟨x, hx, hmap, hc⟩ := h.of_own (h.own_of_prepared hC hm)
    refine .own hown x ?_ ?_ ?_
    · rw [waiting_old hm]
      exact hx
    · rw [waiting_old hm]
      exact hmap
    · rw [huse, waiting_old hm]
      exact hc

theorem CondInv.waiting (h : CondInv s) (hlive : (s.use a).live = true)
    (hC : (CondOp.wait a).Prepared s) : CondInv (waiting s a) := by
  refine ⟨?_, fun b => ?_⟩
  · unfold Pthread.waiting
    split_ifs <;> exact h.good
  · by_cases hb : b = a
    · subst hb
      exact (h.entry b).waiting_self hlive hC
    · exact (h.entry b).waiting_of_ne hb

/-- A wait for a static condition at an address that has the entry of an earlier one. -/
theorem wait_not_good (h : Entry s a) (hC : ¬ (CondOp.wait a).Prepared s) :
    ¬ (s.condWait a).Safe LookUpsGood := by
  obtain ⟨hi, he⟩ := not_or.mp hC
  have hnot : ¬ ((waiting s a).use a).Own := by
    rw [waiting_use]
    rintro (hown | ⟨-, hown⟩)
    · exact hi hown
    · exact he hown
  rw [condWait_eq]
  refine deref_not_good ?_ hnot
  cases h with
  | absent _ _ hno => exact absurd hno he
  | own hown =>
    rcases hown with hown | ⟨-, hown⟩
    · exact absurd hown hi
    · exact absurd hown he
  | stale hinit hearlier x hx hm hc hn =>
    have hwait : waiting s a = s.setUse a { s.use a with waited := true } := by
      rw [waiting, if_neg (by rw [hm]; simp)]
    have huse := waiting_use s a
    refine .stale ?_ ?_ x ?_ ?_ ?_ ?_
    · rw [huse]; exact hinit
    · rw [huse]; exact hearlier
    · rw [hwait]; exact hx
    · rw [hwait]; exact hm
    · rw [hwait]; exact hc
    · rw [huse, hwait]; exact hn

theorem CondInv.destroy (h : CondInv s) (hlive : (s.use a).live = true) (hown : (s.use a).Own) :
    CondInv (s.condDestroy a) := by
  obtain ⟨x, hx, hm, hc⟩ := (h.entry a).of_own hown
  have hnote : CondInv (s.note a (some x)) := by
    refine h.note ?_
    rw [Option.map_some, hc, hlive]
    rfl
  have hdestroy : s.condDestroy a =
      ((s.note a (some x)).free (some x)).setUse a { s.use a with live := false } := by
    rw [Conds.condDestroy, get_of_some hm]
  rw [hdestroy]
  refine ⟨hnote.good, fun b => ?_⟩
  by_cases hb : b = a
  · subst hb
    have huse : (((s.note b (some x)).free (some x)).setUse b { s.use b with live := false }).use b =
        { s.use b with live := false } := Function.update_self ..
    refine .own (by rw [huse]; exact hown) x hx hm ?_
    rw [huse]
    refine (Function.update_self ..).trans ?_
    change { s.abtCond x with freed := true } = _
    rw [hc]
    rfl
  · refine (hnote.entry b).frame (setUse_of_ne _ _ hb) rfl (Nat.le_refl _) fun y _ hy => ?_
    -- the freed `ABT_cond` is not the one of another address
    have hne : y ≠ x := by
      rintro rfl
      change (s.abtCond y).cond = b at hy
      rw [hc] at hy
      exact hb hy.symm
    exact Function.update_of_ne hne ..

theorem destroy_not_good (h : Entry s a) (hown : ¬ (s.use a).Own) :
    ¬ LookUpsGood (s.condDestroy a) := by
  have hlook : ∀ (t : Conds) (p : Option ℕ) (u : Use), ((t.free p).setUse a u).lookups = t.lookups := by
    intro t p u
    cases p <;> rfl
  rw [LookUpsGood, Conds.condDestroy]
  rcases h.of_not_own hown with hm | ⟨x, hm, hn⟩
  · have hnull := get_of_none hm
    cases hg : s.get a with
    | mk t p =>
      rw [hg] at hnull
      obtain rfl : p = none := hnull
      dsimp only
      rw [hlook]
      exact note_not_good (by simp)
  · rw [get_of_some hm]
    dsimp only
    rw [hlook]
    exact note_not_good (stale_ne hn)

end Steps

theorem condInv_step (o : CondOp) (s : Conds) (h : CondInv s) (hA : o.Admissible s)
    (hC : o.Prepared s) : (o.step s).Safe CondInv := by
  cases o with
  | init a => exact h.init a
  | staticInit a => exact h.staticInit a
  | signal a => exact h.deref hA hC
  | wait a =>
    have hwait := h.waiting hA hC
    have huse := waiting_use s a
    refine hwait.deref ?_ ?_
    · rw [huse]
      exact hA
    · rw [huse]
      rcases hC with hC | hC
      · exact Or.inl hC
      · exact Or.inr ⟨rfl, hC⟩
  | timedwait a => exact h.deref hA hC
  | destroy a => exact h.destroy hA hC

theorem unprepared_step (o : CondOp) (s : Conds) (h : CondInv s) (_ : o.Admissible s)
    (hC : ¬ o.Prepared s) : ¬ (o.step s).Safe LookUpsGood := by
  cases o with
  | init a => exact absurd trivial hC
  | staticInit a => exact absurd trivial hC
  | signal a => exact deref_not_good (h.entry a) hC
  | wait a => exact wait_not_good (h.entry a) hC
  | timedwait a => exact deref_not_good (h.entry a) hC
  | destroy a => exact destroy_not_good (h.entry a) hC

/-- All lookups are good exactly in the runs in which the first use of a static condition is a wait,
at an address that had no `ABT_cond` before. -/
theorem cond_lookups_iff (ops : List CondOp)
    (hA : Meets CondOp.step CondOp.Admissible ops .empty) :
    Always CondOp.step LookUpsGood ops .empty ↔ Meets CondOp.step CondOp.Prepared ops .empty :=
  always_iff_meets (fun _ h => h.good) condInv_step unprepared_step empty_inv hA

/-- The theorem at a static condition that is waited on first. -/
theorem wait_first_good :
    Always CondOp.step LookUpsGood [.staticInit 0, .wait 0, .signal 0, .destroy 0] .empty := by
  refine (cond_lookups_iff _ ?_).mpr ?_
  · exact ⟨trivial, rfl, rfl, rfl, trivial⟩
  · exact ⟨trivial, Or.inr rfl, Or.inr ⟨rfl, rfl⟩, Or.inr ⟨rfl, rfl⟩, trivial⟩

/-- A signal to a static condition dereferences a null pointer; and at an address where a condition
was destroyed, a wait for a static one uses the `ABT_cond` that was freed. -/
theorem static_not_good :
    (Meets CondOp.step CondOp.Admissible [.staticInit 0, .signal 0] .empty ∧
      ¬ Always CondOp.step LookUpsGood [.staticInit 0, .signal 0] .empty) ∧
    Meets CondOp.step CondOp.Admissible [.init 0, .destroy 0, .staticInit 0, .wait 0] .empty ∧
      ¬ Always CondOp.step LookUpsGood [.init 0, .destroy 0, .staticInit 0, .wait 0] .empty := by
  refine ⟨⟨⟨trivial, rfl, trivial⟩, fun h => h.2.2⟩, ⟨trivial, rfl, trivial, rfl, trivial⟩, ?_⟩
  rintro ⟨-, -, -, -, h⟩
  have hfreed := h ⟨0, 2, some ⟨0, 1, true⟩⟩ (by decide)
  exact absurd hfreed (by decide)

end Pthabt.Pthread
