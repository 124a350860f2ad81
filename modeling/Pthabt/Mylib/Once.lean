import Pthabt.Lib.Run
import Mathlib.Logic.Function.Basic

/-! `pthread_once` (`mylib.c`): the call whose compare-and-swap finds the control word zero
runs the routine and then stores `end_val`; every other call waits for that value.
Threads interleave at single loads, stores and compare-and-swaps and at the steps of
the routine, of which there can be any number. -/

namespace Pthabt.Mylib

open Run

/-- The value of `ini_val`. -/
def iniVal : ℕ := 0

/-- The value of `run_val`. -/
def runVal : ℕ := 1

/-- The value of `end_val`. -/
def endVal : ℕ := 2

/-- Where a thread is: outside; before the compare-and-swap; in `init_routine`; before the store of
`end_val`; before a load in the loop; or before it returns. -/
inductive OncePc where
  | idle
  | cas
  | routine
  | store
  | loop
  | ret
  deriving DecidableEq

/-- What a call of thread `t` did: it called the routine, took one step in it, came back from it,
or returned itself. -/
inductive OnceEvent where
  | start (t : ℕ)
  | work (t : ℕ)
  | finish (t : ℕ)
  | ret (t : ℕ)
  deriving DecidableEq

/-- `*once_control`, the places of the threads, and what their calls did so far. -/
structure Once where
  word : ℕ
  pc : ℕ → OncePc
  log : List OnceEvent

namespace Once

/-- A zero-initialised control word that no thread has used. -/
def zeroed : Once := ⟨iniVal, fun _ => .idle, []⟩

def goto (s : Once) (t : ℕ) (pc : OncePc) : Once := { s with pc := Function.update s.pc t pc }

def emit (s : Once) (e : OnceEvent) : Once := { s with log := s.log ++ [e] }

/-- The next step of thread `t`; in the routine, `last` says whether it is the last one. -/
def next (t : ℕ) (last : Bool) (s : Once) : Once :=
  match s.pc t with
  | .idle => s.goto t .cas
  | .cas =>
    if s.word = iniVal then ({ s with word := runVal }.emit (.start t)).goto t .routine
    else s.goto t .loop
  | .routine => if last then (s.emit (.finish t)).goto t .store else s.emit (.work t)
  | .store => { s with word := endVal }.goto t .ret
  | .loop => s.goto t (if s.word = endVal then .ret else .loop)
  | .ret => (s.emit (.ret t)).goto t .idle

end Once

/-- A step of one thread. -/
structure OnceStep where
  thread : ℕ
  last : Bool

def OnceStep.step (o : OnceStep) (s : Once) : Outcome Once := .ok (s.next o.thread o.last)

/-- The calls of the routine. -/
def starts (log : List OnceEvent) : List ℕ :=
  log.filterMap fun
    | .start t => some t
    | _ => none

/-- Past the compare-and-swap. -/
def OncePc.Tried : OncePc → Prop
  | .idle | .cas => False
  | _ => True

/-- The routine is called once, by the time that some call has tried its compare-and-swap; and when
a call returns, that run of the routine has finished, and nothing but returns follows. -/
structure RanOnce (s : Once) : Prop where
  once : (starts s.log).length ≤ 1
  started : ∀ t, (s.pc t).Tried → (starts s.log).length = 1
  published : ∀ l l' t, s.log = l ++ .ret t :: l' →
    (∃ u, starts l = [u] ∧ .finish u ∈ l) ∧ ∀ e ∈ l', ∃ v, e = .ret v

/-! ### Invariant -/

/-- Before the compare-and-swap. -/
def OncePc.Early : OncePc → Prop
  | .idle | .cas => True
  | _ => False

/-- Before the compare-and-swap, or in the loop. -/
def OncePc.Waiting : OncePc → Prop
  | .idle | .cas | .loop => True
  | _ => False

/-- Not on the way of the call that runs the routine. -/
def OncePc.Late : OncePc → Prop
  | .idle | .cas | .loop | .ret => True
  | _ => False

/-- A run of the routine by thread `i`, so far. -/
def running (i n : ℕ) : List OnceEvent := .start i :: List.replicate n (.work i)

/-- A finished run of the routine by thread `i`. -/
def finished (i n : ℕ) : List OnceEvent := running i n ++ [.finish i]

/-- The control word is untouched; one call is in the routine, or is back from it; or the control
word holds `end_val`. -/
inductive OnceInv (s : Once) : Prop where
  | untouched (word : s.word = iniVal) (log : s.log = []) (pc : ∀ t, (s.pc t).Early)
  | routine (word : s.word = runVal) (i n : ℕ) (log : s.log = running i n)
      (run : s.pc i = .routine) (pc : ∀ t, t ≠ i → (s.pc t).Waiting)
  | storing (word : s.word = runVal) (i n : ℕ) (log : s.log = finished i n)
      (run : s.pc i = .store) (pc : ∀ t, t ≠ i → (s.pc t).Waiting)
  | done (word : s.word = endVal) (i n : ℕ) (returned : List ℕ)
      (log : s.log = finished i n ++ returned.map .ret) (pc : ∀ t, (s.pc t).Late)

@[simp] theorem starts_append (l l' : List OnceEvent) : starts (l ++ l') = starts l ++ starts l' :=
  List.filterMap_append

@[simp] theorem starts_running (i n : ℕ) : starts (running i n) = [i] := by
  induction n with
  | zero => rfl
  | succ n ih =>
    rw [running, List.replicate_succ', ← List.cons_append, starts_append]
    change starts (running i n) ++ [] = [i]
    rw [ih, List.append_nil]

@[simp] theorem starts_finished (i n : ℕ) : starts (finished i n) = [i] := by
  simp only [finished, starts_append, starts_running]
  rfl

@[simp] theorem starts_returns (ts : List ℕ) : starts (ts.map .ret) = [] := by
  induction ts with
  | nil => rfl
  | cons t ts ih => exact ih

/-- The run of the routine has no return in it. -/
theorem ret_notMem_finished (i n t : ℕ) : OnceEvent.ret t ∉ finished i n := by
  simp [finished, running]

theorem finish_mem_finished (i n : ℕ) : OnceEvent.finish i ∈ finished i n := by
  simp [finished]

/-- A return in a finished log comes after the run of the routine. -/
theorem ret_after_finished {i n t : ℕ} {returned : List ℕ} {l l' : List OnceEvent}
    (h : finished i n ++ returned.map .ret = l ++ .ret t :: l') :
    ∃ ts ts' : List ℕ, l = finished i n ++ ts.map .ret ∧ l' = ts'.map .ret := by
  rcases List.append_eq_append_iff.mp h with ⟨r, hl, hr⟩ | ⟨r, hf, hr⟩
  · obtain ⟨ts, us, -, rfl, hus⟩ := List.map_eq_append_iff.mp hr
    obtain ⟨u, ts', -, -, rfl⟩ := List.map_eq_cons_iff.mp hus
    exact ⟨ts, ts', hl, rfl⟩
  · cases r with
    | nil =>
      obtain ⟨u, ts', -, -, rfl⟩ := List.map_eq_cons_iff.mp hr.symm
      exact ⟨[], ts', by simpa using hf.symm, rfl⟩
    | cons e r =>
      obtain ⟨rfl, -⟩ := List.cons.inj hr
      exact absurd (by rw [hf]; simp) (ret_notMem_finished i n t)

theorem OnceInv.ranOnce {s : Once} (h : OnceInv s) : RanOnce s := by
  have hnone : ∀ {log : List OnceEvent}, (∀ t, OnceEvent.ret t ∉ log) → ∀ l l' t,
      log = l ++ .ret t :: l' →
        (∃ u, starts l = [u] ∧ .finish u ∈ l) ∧ ∀ e ∈ l', ∃ v, e = OnceEvent.ret v := by
    intro log hno l l' t hl
    exact absurd (by rw [hl]; simp) (hno t)
  cases h with
  | untouched hw hlog hpc =>
    refine ⟨by rw [hlog]; exact Nat.zero_le 1, fun t ht => ?_, hnone (by simp [hlog])⟩
    have hearly := hpc t
    cases he : s.pc t <;> rw [he] at hearly ht <;> first | exact hearly.elim | exact ht.elim
  | routine hw i n hlog hrun hpc =>
    have hone : (starts s.log).length = 1 := by rw [hlog, starts_running]; rfl
    exact ⟨Nat.le_of_eq hone, fun _ _ => hone, hnone (by simp [hlog, running])⟩
  | storing hw i n hlog hrun hpc =>
    have hone : (starts s.log).length = 1 := by rw [hlog, starts_finished]; rfl
    exact ⟨Nat.le_of_eq hone, fun _ _ => hone, hnone fun t => hlog ▸ ret_notMem_finished i n t⟩
  | done hw i n returned hlog hpc =>
    have hone : (starts s.log).length = 1 := by rw [hlog]; simp
    refine ⟨Nat.le_of_eq hone, fun _ _ => hone, fun l l' t hl => ?_⟩
    obtain ⟨ts, ts', rfl, rfl⟩ := ret_after_finished (hlog.symm.trans hl)
    refine ⟨⟨i, by simp, List.mem_append_left _ (finish_mem_finished i n)⟩, fun e he => ?_⟩
    obtain ⟨v, -, rfl⟩ := List.mem_map.mp he
    exact ⟨v, rfl⟩

/-! ### Steps -/

section Steps

variable {s : Once} {t : ℕ} {last : Bool}

theorem OncePc.Early.waiting {pc : OncePc} (h : pc.Early) : pc.Waiting := by
  cases pc <;> trivial

theorem OncePc.Waiting.late {pc : OncePc} (h : pc.Waiting) : pc.Late := by
  cases pc <;> trivial

/-- All places, after thread `t` went to one. -/
theorem forall_went {P : OncePc → Prop} {pcs : ℕ → OncePc} (h : ∀ u, u ≠ t → P (pcs u))
    {pc : OncePc} (hpc : P pc) (u : ℕ) : P (Function.update pcs t pc u) := by
  revert u
  rw [Function.forall_update_iff pcs fun _ => P]
  exact ⟨hpc, h⟩

/-- No call has tried its compare-and-swap yet. -/
theorem once_untouched (hw : s.word = iniVal) (hlog : s.log = []) (hpc : ∀ u, (s.pc u).Early) :
    OnceInv (s.next t last) := by
  have ht := hpc t
  unfold Once.next
  cases he : s.pc t <;> rw [he] at ht <;> try exact ht.elim
  case idle => exact .untouched hw hlog (forall_went (fun u _ => hpc u) trivial)
  case cas =>
    rw [if_pos hw]
    refine .routine rfl t 0 ?_ (Function.update_self ..) fun u hu => ?_
    · change s.log ++ [OnceEvent.start t] = running t 0
      rw [hlog]
      rfl
    · change (Function.update s.pc t .routine u).Waiting
      rw [Function.update_of_ne hu]
      exact (hpc u).waiting

/-- A call that waits while another one has the control word at `run_val`. -/
theorem once_waits (hw : s.word = runVal) {i : ℕ} (hpc : ∀ u, u ≠ i → (s.pc u).Waiting)
    (hti : t ≠ i) : ∃ pc : OncePc, pc.Waiting ∧ s.next t last = s.goto t pc := by
  have hini : s.word ≠ iniVal := by rw [hw]; decide
  have hend : s.word ≠ endVal := by rw [hw]; decide
  have ht := hpc t hti
  unfold Once.next
  cases he : s.pc t <;> rw [he] at ht <;> try exact ht.elim
  case idle => exact ⟨.cas, trivial, rfl⟩
  case cas => exact ⟨.loop, trivial, if_neg hini⟩
  case loop =>
    refine ⟨.loop, trivial, ?_⟩
    dsimp only
    rw [if_neg hend]

/-- The others, and the one that runs the routine, after a call that waits took a step. -/
theorem goto_waiting {i : ℕ} (hpc : ∀ u, u ≠ i → (s.pc u).Waiting) (hti : t ≠ i) {pc : OncePc}
    (hwait : pc.Waiting) :
    (s.goto t pc).pc i = s.pc i ∧ ∀ u, u ≠ i → ((s.goto t pc).pc u).Waiting := by
  refine ⟨Function.update_of_ne hti.symm .., fun u hu => ?_⟩
  change (Function.update s.pc t pc u).Waiting
  by_cases hut : u = t
  · subst hut
    rwa [Function.update_self]
  · rw [Function.update_of_ne hut]
    exact hpc u hu

/-- The call that runs the routine. -/
theorem once_routine (hw : s.word = runVal) {n : ℕ} (hlog : s.log = running t n)
    (hrun : s.pc t = .routine) (hpc : ∀ u, u ≠ t → (s.pc u).Waiting) :
    OnceInv (s.next t last) := by
  unfold Once.next
  simp only [hrun]
  cases last with
  | false =>
    refine .routine hw t (n + 1) ?_ hrun hpc
    change s.log ++ [OnceEvent.work t] = running t (n + 1)
    rw [hlog, running, running, List.replicate_succ', List.cons_append]
  | true =>
    refine .storing hw t n ?_ (Function.update_self ..) fun u hu => ?_
    · change s.log ++ [OnceEvent.finish t] = finished t n
      rw [hlog, finished]
    · change (Function.update s.pc t .store u).Waiting
      rw [Function.update_of_ne hu]
      exact hpc u hu

/-- The call that publishes the end of the routine. -/
theorem once_storing {n : ℕ} (hlog : s.log = finished t n) (hrun : s.pc t = .store)
    (hpc : ∀ u, u ≠ t → (s.pc u).Waiting) : OnceInv (s.next t last) := by
  unfold Once.next
  simp only [hrun]
  refine .done rfl t n [] ?_ (forall_went (fun u hu => (hpc u hu).late) trivial)
  exact hlog.trans (List.append_nil _).symm

/-- The control word holds `end_val`. -/
theorem once_done (hw : s.word = endVal) {i n : ℕ} {returned : List ℕ}
    (hlog : s.log = finished i n ++ returned.map .ret) (hpc : ∀ u, (s.pc u).Late) :
    OnceInv (s.next t last) := by
  have hini : s.word ≠ iniVal := by rw [hw]; decide
  have hgo : ∀ pc : OncePc, pc.Late → OnceInv (s.goto t pc) := fun pc hlate =>
    .done hw i n returned hlog (forall_went (fun u _ => hpc u) hlate)
  have ht := hpc t
  unfold Once.next
  cases he : s.pc t <;> rw [he] at ht <;> try exact ht.elim
  case idle => exact hgo _ trivial
  case cas =>
    rw [if_neg hini]
    exact hgo _ trivial
  case loop =>
    simp only [if_pos hw]
    exact hgo _ trivial
  case ret =>
    refine .done hw i n (returned ++ [t]) ?_ (forall_went (fun u _ => hpc u) trivial)
    change s.log ++ [OnceEvent.ret t] = _
    rw [hlog, List.map_append, List.append_assoc]
    rfl

end Steps

theorem onceInv_step (o : OnceStep) (s : Once) (h : OnceInv s) : (o.step s).Safe OnceInv := by
  change OnceInv (s.next o.thread o.last)
  cases h with
  | untouched hw hlog hpc => exact once_untouched hw hlog hpc
  | routine hw i n hlog hrun hpc =>
    by_cases hti : o.thread = i
    · subst hti
      exact once_routine hw hlog hrun hpc
    · obtain ⟨pc, hwait, hnext⟩ := once_waits hw hpc hti
      obtain ⟨hi, hothers⟩ := goto_waiting hpc hti hwait
      rw [hnext]
      exact .routine hw i n hlog (hi.trans hrun) hothers
  | storing hw i n hlog hrun hpc =>
    by_cases hti : o.thread = i
    · subst hti
      exact once_storing hlog hrun hpc
    · obtain ⟨pc, hwait, hnext⟩ := once_waits hw hpc hti
      obtain ⟨hi, hothers⟩ := goto_waiting hpc hti hwait
      rw [hnext]
      exact .storing hw i n hlog (hi.trans hrun) hothers
  | done hw i n returned hlog hpc => exact once_done hw hlog hpc

/-- In every run of calls on a zero-initialised control word, the routine is called by one call,
and calls return only after it. -/
theorem pthread_once_publishes (steps : List OnceStep) :
    Always OnceStep.step RanOnce steps .zeroed :=
  always_of_inv (fun _ h => h.ranOnce) onceInv_step steps (.untouched rfl rfl fun _ => trivial)

end Pthabt.Mylib
