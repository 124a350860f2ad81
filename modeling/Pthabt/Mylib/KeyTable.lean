import Mathlib.Data.Int.Notation
import Mathlib.Data.List.Perm.Subperm
import Mathlib.Logic.Function.Basic
import Pthabt.Lib.Run

/-! `pthread_key_create` and `pthread_key_delete` (`mylib.c`). A create claims the first null entry of
`abt_keys` with fresh memory, and only then asks Argobots for the key, whose result it returns;
nothing releases the entry when that fails. A delete clears its entry. What `malloc` and Argobots
return is part of the calls. -/

namespace Pthabt.Mylib

open Run

/-- `N_KEY`. -/
@[irreducible] def nKey : ℕ := 1024

/-- `EAGAIN`. -/
def eagain : ℤ := 11

/-- `abt_keys`, and the keys that callers hold: returned by a successful create and not deleted. -/
structure KeyTable where
  abtKeys : ℕ → Option ℕ
  live : List ℕ

/-- What a create returns and leaves: its result, `*key`, and the table. -/
structure KeyCreated where
  ret : ℤ
  key : ℕ
  abtKeys : ℕ → Option ℕ

/-- The loop over `i_key`. -/
def freeKey (abtKeys : ℕ → Option ℕ) : Option ℕ :=
  (List.range nKey).find? fun i => (abtKeys i).isNone

/-- `pthread_key_create`, where `malloc` returns `block` and `ABT_key_create` returns `ret`. -/
def pthreadKeyCreate (abtKeys : ℕ → Option ℕ) (key block : ℕ) (ret : ℤ) : KeyCreated :=
  match freeKey abtKeys with
  | some i => ⟨ret, i, Function.update abtKeys i (some block)⟩
  | none => ⟨eagain, key, abtKeys⟩

/-- A create by a caller whose `*key` is `key`, or a delete. -/
inductive KeyStep where
  | create (key block : ℕ) (ret : ℤ)
  | delete (key : ℕ)

/-- A create that returns 0 gives the key to its caller. A delete reads its entry. -/
def KeyStep.step : KeyStep → KeyTable → Outcome KeyTable
  | .create key block ret, s =>
    let r := pthreadKeyCreate s.abtKeys key block ret
    .ok ⟨r.abtKeys, if r.ret = 0 then s.live ++ [r.key] else s.live⟩
  | .delete key, s =>
    if key < nKey ∧ (s.abtKeys key).isSome then
      .ok ⟨Function.update s.abtKeys key none, s.live.erase key⟩
    else .fault

/-- Only live keys are deleted. -/
def KeyStep.Admissible : KeyStep → KeyTable → Prop
  | .create _ _ _, _ => True
  | .delete key, s => key ∈ s.live

instance (o : KeyStep) (s : KeyTable) : Decidable (o.Admissible s) :=
  match o with
  | .create _ _ _ => inferInstanceAs (Decidable True)
  | .delete key => inferInstanceAs (Decidable (key ∈ s.live))

/-- The entries that are not null are the live keys, which are distinct. -/
structure KeysMatch (s : KeyTable) : Prop where
  entry : ∀ k < nKey, s.abtKeys k ≠ none ↔ k ∈ s.live
  inTable : ∀ k ∈ s.live, k < nKey
  distinct : s.live.Nodup

/-- A create returns `EAGAIN` when all keys are live and only then, and one that fails leaves `*key`
and the table. -/
def KeyStep.CreatesRight : KeyStep → KeyTable → Prop
  | .create key block ret, s =>
    let r := pthreadKeyCreate s.abtKeys key block ret
    (r.ret = eagain ↔ s.live.length = nKey) ∧ (r.ret ≠ 0 → r.key = key ∧ r.abtKeys = s.abtKeys)
  | .delete _, _ => True

/-- `ABT_key_create` succeeds where it is called. -/
def KeyStep.Succeeds : KeyStep → KeyTable → Prop
  | .create _ _ ret, s => freeKey s.abtKeys ≠ none → ret = 0
  | .delete _, _ => True

instance (o : KeyStep) (s : KeyTable) : Decidable (o.Succeeds s) :=
  match o with
  | .create _ _ ret => inferInstanceAs (Decidable (freeKey s.abtKeys ≠ none → ret = 0))
  | .delete _ => inferInstanceAs (Decidable True)

section Steps

variable {s : KeyTable} {i key block : ℕ} {ret : ℤ}

theorem freeKey_some (h : freeKey s.abtKeys = some i) : i < nKey ∧ s.abtKeys i = none := by
  refine ⟨List.mem_range.mp (List.mem_of_find?_eq_some h), ?_⟩
  simpa using List.find?_some h

theorem freeKey_none (h : freeKey s.abtKeys = none) : ∀ k < nKey, s.abtKeys k ≠ none := by
  intro k hk
  have hall := List.find?_eq_none.mp h k (List.mem_range.mpr hk)
  simpa using hall

theorem create_some (h : freeKey s.abtKeys = some i) : pthreadKeyCreate s.abtKeys key block ret =
    ⟨ret, i, Function.update s.abtKeys i (some block)⟩ := by simp only [pthreadKeyCreate, h]

theorem create_none (h : freeKey s.abtKeys = none) :
    pthreadKeyCreate s.abtKeys key block ret = ⟨eagain, key, s.abtKeys⟩ := by
  simp only [pthreadKeyCreate, h]

/-- The table is full when all keys are live. -/
theorem KeysMatch.full_iff (h : KeysMatch s) : s.live.length = nKey ↔ freeKey s.abtKeys = none := by
  have hsub : s.live.Subperm (List.range nKey) :=
    List.subperm_of_subset h.distinct fun k hk => List.mem_range.mpr (h.inTable k hk)
  constructor
  · intro hlen
    have hperm := hsub.perm_of_length_le (Nat.le_of_eq (List.length_range.trans hlen.symm))
    refine List.find?_eq_none.mpr fun k hk => ?_
    have hlive : k ∈ s.live := hperm.mem_iff.mpr hk
    have hentry := (h.entry k (List.mem_range.mp hk)).mpr hlive
    simpa using hentry
  · intro hnone
    refine Nat.le_antisymm ?_ ?_
    · simpa using hsub.length_le
    · have hall : (List.range nKey).Subperm s.live := by
        refine List.subperm_of_subset List.nodup_range fun k hk => ?_
        have hk := List.mem_range.mp hk
        exact (h.entry k hk).mp (freeKey_none hnone k hk)
      simpa using hall.length_le

/-- The new key was not live. -/
theorem KeysMatch.create (h : KeysMatch s) (hfree : freeKey s.abtKeys = some i) :
    KeysMatch ⟨Function.update s.abtKeys i (some block), s.live ++ [i]⟩ := by
  obtain ⟨hi, hnull⟩ := freeKey_some hfree
  have hnew : i ∉ s.live := fun hmem => (h.entry i hi).mpr hmem hnull
  constructor
  · intro k hk
    show Function.update s.abtKeys i (some block) k ≠ none ↔ k ∈ s.live ++ [i]
    rw [List.mem_append, List.mem_singleton]
    by_cases hki : k = i
    · subst hki
      simp
    · rw [Function.update_of_ne hki, h.entry k hk, or_iff_left hki]
  · intro k hk
    rcases List.mem_append.mp hk with hk | hk
    · exact h.inTable k hk
    · rwa [List.mem_singleton.mp hk]
  · refine List.nodup_append.mpr ⟨h.distinct, List.pairwise_singleton _ i, ?_⟩
    intro a ha b hb
    rw [List.mem_singleton.mp hb]
    exact fun hai => hnew (hai ▸ ha)

theorem KeysMatch.delete (h : KeysMatch s) (key : ℕ) :
    KeysMatch ⟨Function.update s.abtKeys key none, s.live.erase key⟩ := by
  constructor
  · intro k hk
    show Function.update s.abtKeys key none k ≠ none ↔ k ∈ s.live.erase key
    rw [h.distinct.mem_erase_iff]
    by_cases hki : k = key
    · subst hki
      simp
    · rw [Function.update_of_ne hki, h.entry k hk, and_iff_right hki]
  · intro k hk
    exact h.inTable k (List.mem_of_mem_erase hk)
  · exact h.distinct.erase key

/-- A live key has an entry. -/
theorem KeysMatch.deletes (h : KeysMatch s) (hlive : key ∈ s.live) :
    key < nKey ∧ (s.abtKeys key).isSome := by
  have hlt := h.inTable key hlive
  exact ⟨hlt, Option.isSome_iff_ne_none.mpr ((h.entry key hlt).mpr hlive)⟩

theorem keysMatch_step (o : KeyStep) (s : KeyTable) (h : KeysMatch s) (hA : o.Admissible s)
    (hC : o.Succeeds s) : (o.step s).Safe KeysMatch := by
  cases o with
  | create key block ret =>
    cases hfree : freeKey s.abtKeys with
    | some i =>
      have hret : ret = 0 := hC (by rw [hfree]; exact Option.some_ne_none i)
      simp only [KeyStep.step, create_some hfree, hret, if_true]
      exact h.create hfree
    | none =>
      simp only [KeyStep.step, create_none hfree, if_neg (show eagain ≠ 0 by decide)]
      exact h
  | delete key =>
    rw [KeyStep.step, if_pos (h.deletes hA)]
    exact h.delete key

/-- A failed `ABT_key_create` leaves an entry that is no live key. -/
theorem not_keysMatch_of_failed (o : KeyStep) (s : KeyTable) (h : KeysMatch s) (hC : ¬ o.Succeeds s) :
    ¬ (o.step s).Safe KeysMatch := by
  cases o with
  | create key block ret =>
    obtain ⟨hne, hret⟩ := Classical.not_imp.mp hC
    obtain ⟨i, hfree⟩ := Option.ne_none_iff_exists'.mp hne
    obtain ⟨hi, hnull⟩ := freeKey_some hfree
    simp only [KeyStep.step, create_some hfree, if_neg hret, Outcome.safe_ok]
    intro hmatch
    have hlive : i ∈ s.live := (hmatch.entry i hi).mp (by simp)
    exact (h.entry i hi).mpr hlive hnull
  | delete key => exact absurd trivial hC

/-- While `ABT_key_create` succeeds, creates are right. -/
theorem KeysMatch.createsRight (h : KeysMatch s) (o : KeyStep) (hC : o.Succeeds s) :
    o.CreatesRight s := by
  cases o with
  | create key block ret =>
    cases hfree : freeKey s.abtKeys with
    | some i =>
      have hret : ret = 0 := hC (by rw [hfree]; exact Option.some_ne_none i)
      have hlen : s.live.length ≠ nKey := fun hlen => by
        have hnone := h.full_iff.mp hlen
        rw [hfree] at hnone
        cases hnone
      simp only [KeyStep.CreatesRight, create_some hfree, hret]
      exact ⟨iff_of_false (by decide) hlen, fun hne => absurd rfl hne⟩
    | none =>
      simp only [KeyStep.CreatesRight, create_none hfree]
      exact ⟨iff_of_true trivial (h.full_iff.mpr hfree), fun _ => ⟨trivial, trivial⟩⟩
  | delete key => trivial

end Steps

/-- No key was created. -/
def noKeys : KeyTable := ⟨fun _ => none, []⟩

theorem noKeys_match : KeysMatch noKeys where
  entry := fun _ _ => iff_of_false (fun h => h rfl) List.not_mem_nil
  inTable := fun _ hk => absurd hk List.not_mem_nil
  distinct := List.nodup_nil

/-- In a run that deletes live keys only, the table is always that of the live keys and every create
is right, if and only if `ABT_key_create` succeeds in each create that finds a null entry. -/
theorem keys_match_iff_succeeds (steps : List KeyStep)
    (hA : Meets KeyStep.step KeyStep.Admissible steps noKeys) :
    Always KeyStep.step KeysMatch steps noKeys ∧
        Meets KeyStep.step KeyStep.CreatesRight steps noKeys ↔
      Meets KeyStep.step KeyStep.Succeeds steps noKeys := by
  have halways := always_iff_meets (P := KeysMatch) (fun _ h => h) keysMatch_step
    (fun o s h _ hC => not_keysMatch_of_failed o s h hC) noKeys_match hA
  constructor
  · rintro ⟨h, -⟩
    exact halways.mp h
  · intro hC
    have h := halways.mpr hC
    exact ⟨h, h.meets (fun o s hs hC => hs.createsRight o hC) hC⟩

/-- The theorem at a run that creates two keys and deletes one, whose entry is used again. -/
theorem reused_key_matches :
    Always KeyStep.step KeysMatch [.create 7 100 0, .create 7 200 0, .delete 0, .create 7 300 0] noKeys ∧
    Meets KeyStep.step KeyStep.CreatesRight
      [.create 7 100 0, .create 7 200 0, .delete 0, .create 7 300 0] noKeys :=
  (keys_match_iff_succeeds _ (by decide +kernel)).mpr (by decide +kernel)

/-- The result of a failed `ABT_key_create` is returned, but the entry and `*key` are set, and no key is
live. -/
theorem failed_key_not_matching :
    Meets KeyStep.step KeyStep.Admissible [.create 7 100 2] noKeys ∧
    ¬ (Always KeyStep.step KeysMatch [.create 7 100 2] noKeys ∧
      Meets KeyStep.step KeyStep.CreatesRight [.create 7 100 2] noKeys) ∧
    (pthreadKeyCreate noKeys.abtKeys 7 100 2).ret = 2 ∧
    (pthreadKeyCreate noKeys.abtKeys 7 100 2).key = 0 ∧
    (pthreadKeyCreate noKeys.abtKeys 7 100 2).abtKeys 0 = some 100 := by
  have hA : Meets KeyStep.step KeyStep.Admissible [.create 7 100 2] noKeys := by decide +kernel
  refine ⟨hA, fun h => ?_, by decide +kernel, by decide +kernel, by decide +kernel⟩
  exact absurd ((keys_match_iff_succeeds _ hA).mp h) (by decide +kernel)

end Pthabt.Mylib
