import Mathlib.Data.List.Basic

/-! Finite runs of a step function over a shared state. A step finishes in a new
state, stops the process on a failed assertion, or accesses memory outside the
tables it owns, after which nothing is known. A property holds along a run when
it holds in every state reached and no step is undefined. One rule reduces an
equivalence between two such properties of runs to single steps. -/

namespace Pthabt.Run

variable {σ ι : Type*}

/-- What one step can do. `abort` keeps the state that outlives the process. -/
inductive Outcome (σ : Type*) where
  | ok (s : σ)
  | abort (s : σ)
  | fault

namespace Outcome

/-- The step is defined, and if the process goes on it is in a state of `P`. -/
def Safe (P : σ → Prop) : Outcome σ → Prop
  | .ok s => P s
  | .abort _ => True
  | .fault => False

/-- If the process goes on, it is in a state of `P`. -/
def After (P : σ → Prop) : Outcome σ → Prop
  | .ok s => P s
  | .abort _ => True
  | .fault => True

def bind (x : Outcome σ) (f : σ → Outcome σ) : Outcome σ :=
  match x with
  | .ok s => f s
  | .abort s => .abort s
  | .fault => .fault

/-- A step on a part of a larger state. -/
def map {τ : Type*} (f : σ → τ) : Outcome σ → Outcome τ
  | .ok s => .ok (f s)
  | .abort s => .abort (f s)
  | .fault => .fault

@[simp] theorem map_ok {τ : Type*} (f : σ → τ) (s : σ) : (Outcome.ok s).map f = .ok (f s) := rfl

theorem map_eq_ok {τ : Type*} {f : σ → τ} {x : Outcome σ} {t : τ} (h : x.map f = .ok t) :
    ∃ s, x = .ok s ∧ f s = t := by
  cases x with
  | ok s => exact ⟨s, rfl, Outcome.ok.inj h⟩
  | abort s => cases h
  | fault => cases h

theorem safe_map {τ : Type*} (f : σ → τ) (P : τ → Prop) (x : Outcome σ) :
    (x.map f).Safe P ↔ x.Safe fun s => P (f s) := by
  cases x <;> rfl

@[simp] theorem safe_ok (P : σ → Prop) (s : σ) : (Outcome.ok s).Safe P ↔ P s := Iff.rfl

@[simp] theorem safe_abort (P : σ → Prop) (s : σ) : (Outcome.abort s).Safe P := trivial

@[simp] theorem safe_fault (P : σ → Prop) : ¬ (Outcome.fault : Outcome σ).Safe P := id

@[simp] theorem after_ok (P : σ → Prop) (s : σ) : (Outcome.ok s).After P ↔ P s := Iff.rfl

@[simp] theorem after_abort (P : σ → Prop) (s : σ) : (Outcome.abort s).After P := trivial

@[simp] theorem after_fault (P : σ → Prop) : (Outcome.fault : Outcome σ).After P := trivial

@[simp] theorem bind_ok (s : σ) (f : σ → Outcome σ) : (Outcome.ok s).bind f = f s := rfl

@[simp] theorem bind_abort (s : σ) (f : σ → Outcome σ) : (Outcome.abort s).bind f = .abort s := rfl

@[simp] theorem bind_fault (f : σ → Outcome σ) : Outcome.fault.bind f = .fault := rfl

theorem After.of_forall {P : σ → Prop} (h : ∀ s, P s) (x : Outcome σ) : x.After P := by
  cases x with
  | ok s => exact h s
  | abort s => trivial
  | fault => trivial

theorem Safe.mono {P Q : σ → Prop} {x : Outcome σ} (h : x.Safe P) (hPQ : ∀ s, P s → Q s) :
    x.Safe Q := by
  cases x with
  | ok s => exact hPQ s h
  | abort s => trivial
  | fault => exact h

/-- A defined step of a property, and what holds after it, combine. -/
theorem Safe.and_after {P Q : σ → Prop} {x : Outcome σ} (h : x.Safe P) (hq : x.After Q) :
    x.Safe (fun s => P s ∧ Q s) := by
  cases x with
  | ok s => exact ⟨h, hq⟩
  | abort s => trivial
  | fault => exact h

theorem bind_eq_ok {x : Outcome σ} {f : σ → Outcome σ} {s : σ} (h : x.bind f = .ok s) :
    ∃ t, x = .ok t ∧ f t = .ok s := by
  cases x with
  | ok t => exact ⟨t, rfl, h⟩
  | abort t => simp at h
  | fault => simp at h

/-- Whether a step ends in a state of a computable property can be computed. -/
instance decidableEnds (P : σ → Prop) [DecidablePred P] :
    ∀ x : Outcome σ, Decidable (∃ s, x = .ok s ∧ P s)
  | .ok s => decidable_of_iff (P s) (by simp)
  | .abort _ => isFalse (by simp)
  | .fault => isFalse (by simp)

end Outcome

section Runs

variable (step : ι → σ → Outcome σ)

/-- The end of a run. -/
def run : List ι → σ → Outcome σ
  | [], s => .ok s
  | o :: os, s => (step o s).bind (run os)

/-- `P` holds in every state of the run and every step of it is defined. -/
def Always (P : σ → Prop) : List ι → σ → Prop
  | [] => P
  | o :: os => fun s => P s ∧ (step o s).Safe (Always P os)

/-- Every step of the run is taken in a state that meets `C`. -/
def Meets (C : ι → σ → Prop) : List ι → σ → Prop
  | [] => fun _ => True
  | o :: os => fun s => C o s ∧ (step o s).After (Meets C os)

@[simp] theorem run_nil (s : σ) : run step [] s = .ok s := rfl

@[simp] theorem run_cons (o : ι) (os : List ι) (s : σ) :
    run step (o :: os) s = (step o s).bind (run step os) := rfl

@[simp] theorem always_nil (P : σ → Prop) (s : σ) : Always step P [] s ↔ P s := Iff.rfl

@[simp] theorem always_cons (P : σ → Prop) (o : ι) (os : List ι) (s : σ) :
    Always step P (o :: os) s ↔ P s ∧ (step o s).Safe (Always step P os) := Iff.rfl

@[simp] theorem meets_nil (C : ι → σ → Prop) (s : σ) : Meets step C [] s := trivial

@[simp] theorem meets_cons (C : ι → σ → Prop) (o : ι) (os : List ι) (s : σ) :
    Meets step C (o :: os) s ↔ C o s ∧ (step o s).After (Meets step C os) := Iff.rfl

/-- A condition that can be computed can be computed along a run. -/
instance decidableMeets (C : ι → σ → Prop) [∀ o s, Decidable (C o s)] :
    ∀ (os : List ι) (s : σ), Decidable (Meets step C os s)
  | [], _ => isTrue trivial
  | o :: os, s =>
    have := decidableMeets C os
    have : Decidable ((step o s).After (Meets step C os)) :=
      match step o s with
      | .ok s' => this s'
      | .abort _ => isTrue trivial
      | .fault => isTrue trivial
    inferInstanceAs (Decidable (C o s ∧ (step o s).After (Meets step C os)))

variable {step}

/-- A run of steps that are named otherwise. -/
theorem run_map {κ : Type*} (f : κ → ι) (os : List κ) :
    ∀ s : σ, run step (os.map f) s = run (fun o => step (f o)) os s := by
  induction os with
  | nil => exact fun _ => rfl
  | cons o os ih =>
    intro s
    rw [List.map_cons, run_cons, run_cons]
    exact congrArg (step (f o) s).bind (funext ih)

theorem run_append {os os' : List ι} : ∀ {s t : σ}, run step os s = .ok t →
    run step (os ++ os') s = run step os' t := by
  induction os with
  | nil =>
    intro s t h
    simp only [run_nil, Outcome.ok.injEq] at h
    rw [List.nil_append, h]
  | cons o os ih =>
    intro s t h
    obtain ⟨u, hu, h⟩ := Outcome.bind_eq_ok h
    rw [List.cons_append, run_cons, hu, Outcome.bind_ok]
    exact ih h

/-- A run goes on from where it ended. -/
theorem Meets.append {C : ι → σ → Prop} {os os' : List ι} :
    ∀ {s t : σ}, Meets step C os s → run step os s = .ok t → Meets step C os' t →
      Meets step C (os ++ os') s := by
  induction os with
  | nil =>
    intro s t _ h h'
    simp only [run_nil, Outcome.ok.injEq] at h
    rwa [List.nil_append, h]
  | cons o os ih =>
    intro s t hC h h'
    obtain ⟨u, hu, h⟩ := Outcome.bind_eq_ok h
    obtain ⟨hC, hCs⟩ := hC
    rw [hu, Outcome.after_ok] at hCs
    refine ⟨hC, ?_⟩
    rw [hu, Outcome.after_ok]
    exact ih hCs h h'

/-- The run `os` from `s` meets `C` and ends in `t`. -/
structure Runs (step : ι → σ → Outcome σ) (C : ι → σ → Prop) (os : List ι) (s t : σ) : Prop where
  meets : Meets step C os s
  run : run step os s = .ok t

theorem Runs.nil (C : ι → σ → Prop) (s : σ) : Runs step C [] s s := ⟨trivial, rfl⟩

theorem Runs.cons {C : ι → σ → Prop} {o : ι} {os : List ι} {s t u : σ} (hC : C o s)
    (h : step o s = .ok t) (hr : Runs step C os t u) : Runs step C (o :: os) s u where
  meets := ⟨hC, by rw [h]; exact hr.meets⟩
  run := by rw [run_cons, h, Outcome.bind_ok, hr.run]

/-- The first step of a run to a state of `P`. -/
theorem Runs.exists_cons {C : ι → σ → Prop} {P : σ → Prop} {o : ι} {os : List ι} {s t : σ}
    (h : step o s = .ok t) (hC : C o s) (hr : ∃ u, Runs step C os t u ∧ P u) :
    ∃ u, Runs step C (o :: os) s u ∧ P u := by
  obtain ⟨u, hr, hu⟩ := hr
  exact ⟨u, .cons hC h hr, hu⟩

theorem Runs.append {C : ι → σ → Prop} {os os' : List ι} {s t u : σ} (h : Runs step C os s t)
    (h' : Runs step C os' t u) : Runs step C (os ++ os') s u where
  meets := h.meets.append h.run h'.meets
  run := by rw [run_append h.run, h'.run]

/-- Two conditions that every step of a run meets, each step meets together. -/
theorem Meets.and {C D : ι → σ → Prop} {os : List ι} :
    ∀ {s : σ}, Meets step C os s → Meets step D os s → Meets step (fun o s => C o s ∧ D o s) os s := by
  induction os with
  | nil => exact fun {s} _ _ => trivial
  | cons o os ih =>
    intro s hC hD
    refine ⟨⟨hC.1, hD.1⟩, ?_⟩
    obtain ⟨-, hC⟩ := hC
    obtain ⟨-, hD⟩ := hD
    cases hx : step o s with
    | ok s' => rw [hx] at hC hD; exact ih hC hD
    | abort s' => trivial
    | fault => trivial

/-- The first state of a run is one of its states. -/
theorem Always.head {P : σ → Prop} {os : List ι} {s : σ} (h : Always step P os s) : P s := by
  cases os with
  | nil => exact h
  | cons o os => exact h.1

/-- The last state of a run is one of its states. -/
theorem Always.at_end {P : σ → Prop} {os : List ι} :
    ∀ {s t : σ}, Always step P os s → run step os s = .ok t → P t := by
  induction os with
  | nil =>
    intro s t h ht
    simp only [run_nil, Outcome.ok.injEq] at ht
    exact ht ▸ h
  | cons o os ih =>
    intro s t h ht
    obtain ⟨u, hu, ht⟩ := Outcome.bind_eq_ok ht
    have h := h.2
    rw [hu, Outcome.safe_ok] at h
    exact ih h ht

/-- A run in which a property always holds is defined. -/
theorem Always.not_fault {P : σ → Prop} {os : List ι} :
    ∀ {s : σ}, Always step P os s → run step os s ≠ .fault := by
  induction os with
  | nil => exact fun {s} _ h => nomatch h
  | cons o os ih =>
    intro s h
    obtain ⟨-, h⟩ := h
    rw [run_cons]
    cases hx : step o s with
    | ok s' =>
      rw [hx] at h
      exact ih h
    | abort s' => exact nofun
    | fault =>
      rw [hx] at h
      exact absurd h id

/-- What a property of states says of the step taken in them, every step of the run meets. -/
theorem Always.meets {P : σ → Prop} {A C : ι → σ → Prop} (hC : ∀ o s, P s → A o s → C o s)
    {os : List ι} : ∀ {s : σ}, Always step P os s → Meets step A os s → Meets step C os s := by
  induction os with
  | nil => exact fun {s} _ _ => trivial
  | cons o os ih =>
    intro s h hA
    refine ⟨hC o s h.1 hA.1, ?_⟩
    obtain ⟨-, h⟩ := h
    obtain ⟨-, hA⟩ := hA
    cases hx : step o s with
    | ok s' => rw [hx] at h hA; exact ih h hA
    | abort s' => trivial
    | fault => trivial

/-- A run meets a condition that each of its steps meets in any state. -/
theorem Meets.of_mem {C : ι → σ → Prop} {os : List ι} (hC : ∀ o ∈ os, ∀ s, C o s) :
    ∀ s : σ, Meets step C os s := by
  induction os with
  | nil => exact fun _ => trivial
  | cons o os ih =>
    have hC' := List.forall_mem_cons.mp hC
    exact fun s => ⟨hC'.1 s, .of_forall (ih hC'.2) _⟩

theorem Meets.of_forall {C : ι → σ → Prop} (hC : ∀ o s, C o s) (os : List ι) :
    ∀ s : σ, Meets step C os s := .of_mem fun o _ => hC o

/-- What an invariant says of the steps that meet `A`, every step of a run of such steps meets. -/
theorem Meets.of_inv {I : σ → Prop} {A C : ι → σ → Prop} (hC : ∀ o s, I s → A o s → C o s)
    (hstep : ∀ o s, I s → A o s → (step o s).After I) {os : List ι} :
    ∀ {s : σ}, I s → Meets step A os s → Meets step C os s := by
  induction os with
  | nil => exact fun {s} _ _ => trivial
  | cons o os ih =>
    intro s hs hA
    refine ⟨hC o s hs hA.1, ?_⟩
    have hI := hstep o s hs hA.1
    obtain ⟨-, hA⟩ := hA
    cases hx : step o s with
    | ok s' => rw [hx] at hI hA; exact ih hI hA
    | abort s' => trivial
    | fault => trivial

/-- An invariant of the steps that meet `A` is one of the runs whose steps all meet it. -/
theorem run_inv_of_meets {I : σ → Prop} {A : ι → σ → Prop}
    (hstep : ∀ o s s', I s → A o s → step o s = .ok s' → I s') {os : List ι} :
    ∀ {s s' : σ}, I s → Meets step A os s → run step os s = .ok s' → I s' := by
  induction os with
  | nil =>
    intro s s' hs _ h
    simp only [run_nil, Outcome.ok.injEq] at h
    exact h ▸ hs
  | cons o os ih =>
    intro s s' hs hA h
    obtain ⟨t, ht, h⟩ := Outcome.bind_eq_ok h
    have hAt := hA.2
    rw [ht, Outcome.after_ok] at hAt
    exact ih (hstep o s t hs hA.1 ht) hAt h

/-- Steps that keep an invariant keep it along every run. -/
theorem always_of_inv {I P : σ → Prop} (hP : ∀ s, I s → P s)
    (hstep : ∀ o s, I s → (step o s).Safe I) (os : List ι) :
    ∀ {s : σ}, I s → Always step P os s := by
  induction os with
  | nil => exact fun {s} hs => hP s hs
  | cons o os ih => exact fun {s} hs => ⟨hP s hs, (hstep o s hs).mono fun s' h => ih h⟩

/-- Steps that keep an invariant while they meet `A` keep it along the run. -/
theorem always_of_meets {I P : σ → Prop} {A : ι → σ → Prop} (hP : ∀ s, I s → P s)
    (hstep : ∀ o s, I s → A o s → (step o s).Safe I) {os : List ι} :
    ∀ {s : σ}, I s → Meets step A os s → Always step P os s := by
  induction os with
  | nil => exact fun {s} hs _ => hP s hs
  | cons o os ih =>
    intro s hs hA
    refine ⟨hP s hs, ?_⟩
    exact ((hstep o s hs hA.1).and_after hA.2).mono (fun s' h => ih h.1 h.2)

/-- A run whose steps keep an invariant and go on comes to its end. -/
theorem exists_run_of_meets {I : σ → Prop} {A : ι → σ → Prop}
    (hstep : ∀ o s, I s → A o s → ∃ s', step o s = .ok s' ∧ I s') {os : List ι} :
    ∀ {s : σ}, I s → Meets step A os s → ∃ t, run step os s = .ok t := by
  induction os with
  | nil => exact fun {s} _ _ => ⟨s, rfl⟩
  | cons o os ih =>
    intro s hs hA
    obtain ⟨s', hs', hI⟩ := hstep o s hs hA.1
    obtain ⟨-, hA⟩ := hA
    rw [hs', Outcome.after_ok] at hA
    rw [run_cons, hs', Outcome.bind_ok]
    exact ih hI hA

/-- A property of runs is equivalent to a condition on their steps when a step that
meets the condition keeps the invariant and one that does not breaks the property at once. -/
theorem always_iff_meets {I P : σ → Prop} {A C : ι → σ → Prop} (hP : ∀ s, I s → P s)
    (hgood : ∀ o s, I s → A o s → C o s → (step o s).Safe I)
    (hbad : ∀ o s, I s → A o s → ¬ C o s → ¬ (step o s).Safe P) {os : List ι} :
    ∀ {s : σ}, I s → Meets step A os s → (Always step P os s ↔ Meets step C os s) := by
  induction os with
  | nil => exact fun {s} hs _ => ⟨fun _ => trivial, fun _ => hP s hs⟩
  | cons o os ih =>
    intro s hs hA
    obtain ⟨hA, hAs⟩ := hA
    constructor
    · rintro ⟨-, h⟩
      have hC : C o s := by
        by_contra hC
        exact hbad o s hs hA hC (h.mono fun s' hs' => hs'.head)
      refine ⟨hC, ?_⟩
      have hI := hgood o s hs hA hC
      cases hx : step o s with
      | ok s' => rw [hx] at h hAs hI; exact (ih hI hAs).mp h
      | abort s' => trivial
      | fault => trivial
    · rintro ⟨hC, h⟩
      refine ⟨hP s hs, ?_⟩
      have hI := hgood o s hs hA hC
      cases hx : step o s with
      | ok s' => rw [hx] at h hAs hI; exact (ih hI hAs).mpr h
      | abort s' => trivial
      | fault => rw [hx] at hI; exact hI

end Runs

end Pthabt.Run
