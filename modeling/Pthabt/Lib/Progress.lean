import Mathlib.Algebra.BigOperators.Group.Finset.Basic
import Mathlib.Algebra.Order.BigOperators.Group.Finset
import Pthabt.Lib.Run

/-! Programs that can come to an end. A rank in the naturals that some step can always lower gives a
run to the end which is no longer than the rank; ranks that are sums change with one summand. -/

namespace Pthabt.Run

variable {σ ι : Type*} {step : ι → σ → Outcome σ}

/-- A run whose steps keep an invariant and go on comes to its end, where the invariant holds. -/
theorem exists_end_of_meets {I : σ → Prop} {A : ι → σ → Prop}
    (hstep : ∀ o s, I s → A o s → ∃ s', step o s = .ok s' ∧ I s') {os : List ι} {s : σ} (hs : I s)
    (hA : Meets step A os s) : ∃ t, run step os s = .ok t ∧ I t := by
  obtain ⟨t, ht⟩ := exists_run_of_meets hstep hs hA
  refine ⟨t, ht, run_inv_of_meets (fun o s s' h hA hs' => ?_) hs hA ht⟩
  obtain ⟨u, hu, hI⟩ := hstep o s h hA
  rw [hs'] at hu
  cases hu
  exact hI

/-- From every state of `I` outside of `G` a step that meets `C` lowers the rank. Then a run of such
steps leads to `G`, and it has at most as many steps as the rank. -/
theorem exists_runs_of_rank {I G : σ → Prop} {C : ι → σ → Prop} {rank : σ → ℕ}
    (hgo : ∀ s, I s → ¬ G s → ∃ o s', C o s ∧ step o s = .ok s' ∧ I s' ∧ rank s' < rank s) {s : σ}
    (h : I s) : ∃ os t, Runs step C os s t ∧ I t ∧ G t ∧ os.length ≤ rank s := by
  generalize hn : rank s = n
  induction n using Nat.strong_induction_on generalizing s with
  | _ n ih =>
    by_cases hG : G s
    · exact ⟨[], s, .nil C s, h, hG, Nat.zero_le n⟩
    · obtain ⟨o, s', hC, hs, hI, hlt⟩ := hgo s h hG
      obtain ⟨os, t, hr, hIt, hGt, hlen⟩ := ih (rank s') (hn ▸ hlt) hI rfl
      refine ⟨o :: os, t, .cons hC hs hr, hIt, hGt, ?_⟩
      rw [List.length_cons]
      omega

/-- A sum in which one summand changes. -/
theorem sum_change {κ : Type*} [DecidableEq κ] {s : Finset κ} {f g : κ → ℕ} {i : κ} (hi : i ∈ s)
    (h : ∀ k ∈ s, k ≠ i → g k = f k) : ∑ k ∈ s, g k + f i = ∑ k ∈ s, f k + g i := by
  have hrest : ∑ k ∈ s.erase i, g k = ∑ k ∈ s.erase i, f k :=
    Finset.sum_congr rfl fun k hk => h k (Finset.mem_of_mem_erase hk) (Finset.ne_of_mem_erase hk)
  rw [← Finset.add_sum_erase s g hi, ← Finset.add_sum_erase s f hi, hrest]
  omega

end Pthabt.Run
