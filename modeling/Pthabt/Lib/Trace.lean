import Pthabt.Lib.Run

/-! The events of a run, and their refinement. A labelled step of a program is one step of an abstract
system with the same label, a step without label none; then the events of every run of the program
are events that the abstract system can go through. -/

namespace Pthabt.Run

variable {σ ι α β : Type*}

/-- The labels of the steps of a run that went on, in their order. -/
def trace (step : ι → σ → Outcome σ) (label : ι → σ → Option β) : List ι → σ → List β
  | [], _ => []
  | o :: os, s =>
    match step o s with
    | .ok s' => (label o s).toList ++ trace step label os s'
    | .abort _ => []
    | .fault => []

/-- The abstract system goes through these events. -/
inductive Trace (R : α → β → α → Prop) : α → List β → α → Prop where
  | nil (a : α) : Trace R a [] a
  | cons {a b c : α} {e : β} {es : List β} (h : R a e b) (ht : Trace R b es c) : Trace R a (e :: es) c

/-- One event, or none. -/
def Moves (R : α → β → α → Prop) : Option β → α → α → Prop
  | some e, a, b => R a e b
  | none, a, b => b = a

section Trace

variable {R : α → β → α → Prop}

theorem Trace.cons_moves {e : Option β} {es : List β} {a b c : α} (h : Moves R e a b)
    (ht : Trace R b es c) : Trace R a (e.toList ++ es) c := by
  cases e with
  | some e => exact .cons h ht
  | none =>
    change b = a at h
    rwa [h] at ht

end Trace

section Refinement

variable {step : ι → σ → Outcome σ} {label : ι → σ → Option β} {R : α → β → α → Prop}

theorem trace_cons_ok {o : ι} {s s' : σ} (h : step o s = .ok s') (os : List ι) :
    trace step label (o :: os) s = (label o s).toList ++ trace step label os s' := by
  rw [trace, h]

/-- A run of steps that keep an invariant and are steps of the abstract system comes to its end, and
its events are events of the abstract system. -/
theorem trace_of_simulation {I : σ → Prop} {A : ι → σ → Prop} {abs : σ → α}
    (hstep : ∀ o s, I s → A o s → ∃ s', step o s = .ok s' ∧ I s' ∧ Moves R (label o s) (abs s) (abs s'))
    {os : List ι} : ∀ {s : σ}, I s → Meets step A os s →
      ∃ t, run step os s = .ok t ∧ I t ∧ Trace R (abs s) (trace step label os s) (abs t) := by
  induction os with
  | nil => exact fun {s} hs _ => ⟨s, rfl, hs, .nil _⟩
  | cons o os ih =>
    intro s hs hA
    obtain ⟨s', hs', hI, hmove⟩ := hstep o s hs hA.1
    have hrest := hA.2
    rw [hs', Outcome.after_ok] at hrest
    obtain ⟨t, ht, hIt, htr⟩ := ih hI hrest
    refine ⟨t, ?_, hIt, ?_⟩
    · rw [run_cons, hs', Outcome.bind_ok, ht]
    · rw [trace_cons_ok hs']
      exact .cons_moves hmove htr

end Refinement

end Pthabt.Run
