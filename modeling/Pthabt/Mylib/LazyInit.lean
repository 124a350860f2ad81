import Pthabt.Lib.Run
import Mathlib.Algebra.Group.Nat.Defs
import Mathlib.Logic.Function.Basic

/-! `get_abt_mutex` and `get_abt_cond` (`mylib.c`): the first call on a zero-filled object
claims its low 32 bits with a placeholder, creates the wrapper and stores the pointer to it
over the whole 64 bits; the other calls wait until the placeholder is gone. Threads
interleave at single loads, stores and compare-and-swaps. -/

namespace Pthabt.Mylib

open Run

/-- What `malloc` and the create functions of Argobots return is part of the steps. -/
inductive Object where
  | mutex
  | cond

/-- `abt_mutex_wrap_t` and `abt_cond_wrap_t`, with the handle once it was created. -/
structure Wrap where
  magic : ℕ
  handle : Option ℕ

/-- The value of `new_magic`. -/
def newMagic : ℕ := 0xffffffff

/-- `*p_magic`, the low half of the object. -/
def pMagic (word : ℕ) : ℕ := word % 2 ^ 32

/-- The constant that the initialiser stores in `magic`. -/
def Object.magic : Object → ℕ
  | .mutex => 0xdeadcafe
  | .cond => 0xdeadbeef

/-- The address of the handle in the wrapper at `a`. -/
def handleAddr (a : ℕ) : ℕ := a + 8

/-- Where a thread is: outside; before the first load of `*p_magic`, the compare-and-swap, the
`malloc` of the initialiser, its store of `magic`, its clock lookup, its creation of the handle and
its store of the pointer to the object; before a load of `*p_magic` in the loop; before
the load of the pointer; or before it returns. -/
inductive LazyPc where
  | idle
  | test
  | cas
  | malloc
  | setMagic (a : ℕ)
  | getclock (a : ℕ)
  | create (a : ℕ)
  | store (a : ℕ)
  | loop
  | load
  | ret (a : ℕ)
  deriving DecidableEq

/-- The 64 bits of the object, the wrappers, and which thread allocated which; the places of the
threads, and the values that calls returned. -/
structure Lazy where
  word : ℕ
  wrap : ℕ → Wrap
  created : List (ℕ × ℕ)
  pc : ℕ → LazyPc
  returned : List ℕ

namespace Lazy

/-- A zero-filled object. -/
def zeroed (wrap : ℕ → Wrap) : Lazy := ⟨0, wrap, [], fun _ => .idle, []⟩

def goto (s : Lazy) (t : ℕ) (pc : LazyPc) : Lazy := { s with pc := Function.update s.pc t pc }

def setWrap (s : Lazy) (a : ℕ) (w : Wrap) : Lazy := { s with wrap := Function.update s.wrap a w }

end Lazy

/-- `get_abt_mutex` tests the low half before it tries to claim it. -/
def Object.start : Object → LazyPc
  | .mutex => .test
  | .cond => .cas

/-- `get_abt_cond` does not enter the loop after it has initialised the object. -/
def Object.initialised : Object → LazyPc
  | .mutex => .loop
  | .cond => .load

/-- `pthread_cond_init` looks up its clock. -/
def Object.afterMagic : Object → ℕ → LazyPc
  | .mutex, a => .create a
  | .cond, a => .getclock a

/-- The next step of thread `t`; `v` is what `malloc` or the creation returns to it. -/
def Lazy.next (k : Object) (t v : ℕ) (s : Lazy) : Lazy :=
  match s.pc t with
  | .idle => s.goto t k.start
  | .test => s.goto t (if pMagic s.word = 0 then .cas else .loop)
  | .cas =>
    if pMagic s.word = 0 then
      { s with word := s.word / 2 ^ 32 * 2 ^ 32 + newMagic }.goto t .malloc
    else s.goto t .loop
  | .malloc => { s with created := s.created ++ [(t, v)] }.goto t (.setMagic v)
  | .setMagic a => (s.setWrap a { s.wrap a with magic := k.magic }).goto t (k.afterMagic a)
  | .getclock a => s.goto t (.create a)
  | .create a => (s.setWrap a { s.wrap a with handle := some v }).goto t (.store a)
  | .store a => { s with word := a }.goto t k.initialised
  | .loop => s.goto t (if pMagic s.word = newMagic then .loop else .load)
  | .load => s.goto t (.ret s.word)
  | .ret a => { s with returned := s.returned ++ [handleAddr a] }.goto t .idle

/-- A step of one thread. -/
structure LazyStep where
  thread : ℕ
  value : ℕ

def LazyStep.step (k : Object) (o : LazyStep) (s : Lazy) : Outcome Lazy :=
  .ok (s.next k o.thread o.value)

/-- `malloc` returns 64-bit addresses whose low halves are neither 0 nor the placeholder. -/
def LazyStep.Admissible (o : LazyStep) (s : Lazy) : Prop :=
  s.pc o.thread = .malloc → pMagic o.value ≠ 0 ∧ pMagic o.value ≠ newMagic ∧ o.value < 2 ^ 64

instance decidableLazyAdmissible (o : LazyStep) (s : Lazy) : Decidable (o.Admissible s) := by
  unfold LazyStep.Admissible
  infer_instance

/-- Both fields were set. -/
def Wrap.Complete (k : Object) (w : Wrap) : Prop := w.magic = k.magic ∧ ∃ h, w.handle = some h

/-- At most one wrapper was created; what calls returned is the address of its handle, and it is
complete; and no pointer that a call has loaded is another one or the placeholder. -/
structure Agreed (k : Object) (s : Lazy) : Prop where
  once : s.created.length ≤ 1
  returned : ∀ r ∈ s.returned, ∃ t a, s.created = [(t, a)] ∧ r = handleAddr a ∧ (s.wrap a).Complete k
  loaded : ∀ t a, s.pc t = .ret a →
    a ≠ newMagic ∧ ∃ u, s.created = [(u, a)] ∧ (s.wrap a).Complete k

/-! ### Invariant -/

/-- Before the compare-and-swap. -/
def LazyPc.Early : LazyPc → Prop
  | .idle | .test | .cas => True
  | _ => False

/-- Before the compare-and-swap, or in the loop. -/
def LazyPc.Waiting : LazyPc → Prop
  | .idle | .test | .cas | .loop => True
  | _ => False

/-- Not in the initialiser; a pointer that was loaded is `a`. -/
def LazyPc.Late (a : ℕ) : LazyPc → Prop
  | .idle | .test | .cas | .loop | .load => True
  | .ret p => p = a
  | _ => False

/-- An address that `malloc` can return. -/
def Address (a : ℕ) : Prop := pMagic a ≠ 0 ∧ pMagic a ≠ newMagic

/-- Thread `t` is in the initialiser. -/
def Initialises (k : Object) (s : Lazy) (t : ℕ) : Prop :=
  match s.pc t with
  | .malloc => s.created = []
  | .setMagic a => s.created = [(t, a)] ∧ Address a
  | .getclock a | .create a => s.created = [(t, a)] ∧ Address a ∧ (s.wrap a).magic = k.magic
  | .store a => s.created = [(t, a)] ∧ Address a ∧ (s.wrap a).Complete k
  | _ => False

/-- The object is untouched, claimed by one thread, or initialised. -/
inductive LazyInv (k : Object) (s : Lazy) : Prop where
  | untouched (word : s.word = 0) (created : s.created = []) (returned : s.returned = [])
      (pc : ∀ t, (s.pc t).Early)
  | claimed (word : s.word = newMagic) (returned : s.returned = []) (i : ℕ)
      (init : Initialises k s i) (pc : ∀ t, t ≠ i → (s.pc t).Waiting)
  | ready (t a : ℕ) (created : s.created = [(t, a)]) (word : s.word = a) (address : Address a)
      (complete : (s.wrap a).Complete k) (returned : ∀ r ∈ s.returned, r = handleAddr a)
      (pc : ∀ t, (s.pc t).Late a)

theorem pMagic_newMagic : pMagic newMagic = newMagic := by decide

theorem Initialises.length_le {k : Object} {s : Lazy} {t : ℕ} (h : Initialises k s t) :
    s.created.length ≤ 1 ∧ ∀ a, s.pc t ≠ .ret a := by
  unfold Initialises at h
  cases hpc : s.pc t <;> simp only [hpc] at h
  case malloc => exact ⟨by rw [h]; exact Nat.zero_le 1, fun _ hn => by cases hn⟩
  all_goals exact ⟨by rw [h.1]; exact Nat.le_refl 1, fun _ hn => by cases hn⟩

theorem LazyInv.agreed {k : Object} {s : Lazy} (h : LazyInv k s) : Agreed k s := by
  cases h with
  | untouched hw hc hr hpc =>
    refine ⟨by rw [hc]; exact Nat.zero_le 1, by rw [hr]; simp, fun t a ht => ?_⟩
    have hearly := hpc t
    rw [ht] at hearly
    exact hearly.elim
  | claimed hw hr i hi hpc =>
    obtain ⟨hlen, hret⟩ := hi.length_le
    refine ⟨hlen, by rw [hr]; simp, fun t a ht => ?_⟩
    by_cases hti : t = i
    · subst hti
      exact absurd ht (hret a)
    · have hwait := hpc t hti
      rw [ht] at hwait
      exact hwait.elim
  | ready u a hc hw ha hcomplete hr hpc =>
    refine ⟨by rw [hc]; exact Nat.le_refl 1, fun r hmem => ⟨u, a, hc, hr r hmem, hcomplete⟩, fun t p ht => ?_⟩
    have hlate := hpc t
    rw [ht] at hlate
    obtain rfl : p = a := hlate
    refine ⟨?_, u, hc, hcomplete⟩
    rintro rfl
    exact ha.2 pMagic_newMagic

/-! ### Steps -/

section Steps

variable {k : Object} {s : Lazy} {t v : ℕ}

/-- All places, after thread `t` went to one. -/
theorem forall_goto {P : LazyPc → Prop} (h : ∀ u, u ≠ t → P (s.pc u)) {pc : LazyPc} (hpc : P pc) :
    ∀ u, P ((s.goto t pc).pc u) := by
  intro u
  change P (Function.update s.pc t pc u)
  by_cases hu : u = t
  · subst hu
    rwa [Function.update_self]
  · rw [Function.update_of_ne hu]
    exact h u hu

@[simp] theorem goto_self (s : Lazy) (t : ℕ) (pc : LazyPc) : (s.goto t pc).pc t = pc :=
  Function.update_self ..

theorem goto_of_ne (s : Lazy) (pc : LazyPc) {t u : ℕ} (h : u ≠ t) : (s.goto t pc).pc u = s.pc u :=
  Function.update_of_ne h ..

theorem LazyPc.Early.waiting {pc : LazyPc} (h : pc.Early) : pc.Waiting := by
  cases pc <;> trivial

theorem LazyPc.Waiting.late {pc : LazyPc} (h : pc.Waiting) (a : ℕ) : pc.Late a := by
  cases pc <;> trivial

theorem start_early (k : Object) : k.start.Early := by
  cases k <;> trivial

theorem initialised_late (k : Object) (a : ℕ) : k.initialised.Late a := by
  cases k <;> trivial

/-- Nobody has claimed the object yet. -/
theorem next_untouched (hw : s.word = 0) (hc : s.created = []) (hr : s.returned = [])
    (hpc : ∀ u, (s.pc u).Early) : LazyInv k (s.next k t v) := by
  have hzero : pMagic s.word = 0 := by rw [hw]; rfl
  have ht := hpc t
  unfold Lazy.next
  cases he : s.pc t <;> rw [he] at ht <;> try exact ht.elim
  case idle => exact .untouched hw hc hr (forall_goto (fun u _ => hpc u) (start_early k))
  case test =>
    simp only [if_pos hzero]
    exact .untouched hw hc hr (forall_goto (P := LazyPc.Early) (fun u _ => hpc u) trivial)
  case cas =>
    -- the high half of the object is still zero, so the placeholder is all it holds
    simp only [if_pos hzero]
    refine .claimed ?_ hr t ?_ fun u hu => ?_
    · change s.word / 2 ^ 32 * 2 ^ 32 + newMagic = newMagic
      rw [hw]
      rfl
    · rw [Initialises, goto_self]
      exact hc
    · rw [goto_of_ne _ _ hu]
      exact (hpc u).waiting

/-- A thread that waits while another one initialises the object. -/
theorem next_waiting (hw : s.word = newMagic) (hr : s.returned = []) {i : ℕ}
    (hi : Initialises k s i) (hpc : ∀ u, u ≠ i → (s.pc u).Waiting) (hti : t ≠ i) :
    LazyInv k (s.next k t v) := by
  have hmagic : pMagic s.word = newMagic := by rw [hw]; exact pMagic_newMagic
  have hne : pMagic s.word ≠ 0 := by rw [hmagic]; decide
  have hstay : ∀ pc : LazyPc, pc.Waiting → LazyInv k (s.goto t pc) := by
    intro pc hwait
    refine .claimed hw hr i ?_ fun u hu => ?_
    · unfold Initialises at hi ⊢
      rw [goto_of_ne _ _ (Ne.symm hti)]
      exact hi
    · by_cases hut : u = t
      · subst hut
        rwa [goto_self]
      · rw [goto_of_ne _ _ hut]
        exact hpc u hu
  have ht := hpc t hti
  unfold Lazy.next
  cases he : s.pc t <;> rw [he] at ht <;> try exact ht.elim
  case idle => exact hstay _ (start_early k).waiting
  case test =>
    simp only [if_neg hne]
    exact hstay _ trivial
  case cas =>
    simp only [if_neg hne]
    exact hstay _ trivial
  case loop =>
    simp only [if_pos hmagic]
    exact hstay _ trivial

/-- The thread that initialises the object. -/
theorem next_initialises (hw : s.word = newMagic) (hr : s.returned = []) (hi : Initialises k s t)
    (hpc : ∀ u, u ≠ t → (s.pc u).Waiting)
    (hA : s.pc t = .malloc → Address v) : LazyInv k (s.next k t v) := by
  have hother : ∀ (s' : Lazy) (pc : LazyPc), s'.pc = s.pc →
      ∀ u, u ≠ t → ((s'.goto t pc).pc u).Waiting := by
    intro s' pc hs u hu
    rw [goto_of_ne _ _ hu, hs]
    exact hpc u hu
  unfold Initialises at hi
  unfold Lazy.next
  cases he : s.pc t <;> simp only [he] at hi <;> try exact hi.elim
  case malloc =>
    refine .claimed hw hr t ?_ (hother _ _ rfl)
    simp only [Initialises, goto_self]
    change s.created ++ [(t, v)] = [(t, v)] ∧ Address v
    rw [hi]
    exact ⟨rfl, hA he⟩
  case setMagic a =>
    refine .claimed hw hr t ?_ (hother _ _ rfl)
    have hmagic : (Function.update s.wrap a { s.wrap a with magic := k.magic } a).magic = k.magic := by
      rw [Function.update_self]
    cases k <;> exact (by simp only [Initialises, goto_self, Object.afterMagic]; exact ⟨hi.1, hi.2, hmagic⟩)
  case getclock a =>
    refine .claimed hw hr t ?_ (hother s _ rfl)
    simp only [Initialises, goto_self]
    exact hi
  case create a =>
    refine .claimed hw hr t ?_ (hother _ _ rfl)
    simp only [Initialises, goto_self]
    refine ⟨hi.1, hi.2.1, ?_⟩
    change (Function.update s.wrap a { s.wrap a with handle := some v } a).Complete k
    rw [Function.update_self]
    exact ⟨hi.2.2, v, rfl⟩
  case store a =>
    obtain ⟨hc, ha, hcomplete⟩ := hi
    refine .ready t a hc rfl ha hcomplete (fun r hmem => ?_) ?_
    · have hmem : r ∈ s.returned := hmem
      rw [hr] at hmem
      cases hmem
    · exact forall_goto (s := { s with word := a }) (P := LazyPc.Late a)
        (fun u hu => (hpc u hu).late a) (initialised_late k a)

/-- The object holds the pointer. -/
theorem next_ready {u a : ℕ} (hc : s.created = [(u, a)]) (hw : s.word = a) (ha : Address a)
    (hcomplete : (s.wrap a).Complete k) (hr : ∀ r ∈ s.returned, r = handleAddr a)
    (hpc : ∀ w, (s.pc w).Late a) : LazyInv k (s.next k t v) := by
  have hne : pMagic s.word ≠ 0 := by rw [hw]; exact ha.1
  have hno : pMagic s.word ≠ newMagic := by rw [hw]; exact ha.2
  have hgo : ∀ pc : LazyPc, pc.Late a → LazyInv k (s.goto t pc) := fun pc hlate =>
    .ready u a hc hw ha hcomplete hr (forall_goto (fun w _ => hpc w) hlate)
  have ht := hpc t
  unfold Lazy.next
  cases he : s.pc t <;> rw [he] at ht <;> try exact ht.elim
  case idle => exact hgo _ ((start_early k).waiting.late a)
  case test =>
    simp only [if_neg hne]
    exact hgo _ trivial
  case cas =>
    simp only [if_neg hne]
    exact hgo _ trivial
  case loop =>
    simp only [if_neg hno]
    exact hgo _ trivial
  case load => exact hgo _ hw
  case ret p =>
    obtain rfl : p = a := ht
    refine .ready u p hc hw ha hcomplete (fun r hmem => ?_)
      (forall_goto (s := { s with returned := _ }) (P := LazyPc.Late p) (fun w _ => hpc w) trivial)
    rcases List.mem_append.mp hmem with hmem | hmem
    · exact hr r hmem
    · exact List.mem_singleton.mp hmem

end Steps

theorem lazyInv_step (k : Object) (o : LazyStep) (s : Lazy) (h : LazyInv k s)
    (hA : o.Admissible s) : (o.step k s).Safe (LazyInv k) := by
  change LazyInv k (s.next k o.thread o.value)
  cases h with
  | untouched hw hc hr hpc => exact next_untouched hw hc hr hpc
  | claimed hw hr i hi hpc =>
    by_cases hti : o.thread = i
    · subst hti
      exact next_initialises hw hr hi hpc fun he => ⟨(hA he).1, (hA he).2.1⟩
    · exact next_waiting hw hr hi hpc hti
  | ready u a hc hw ha hcomplete hr hpc => exact next_ready hc hw ha hcomplete hr hpc

/-- In every run of calls on a zero-filled object, all calls agree on one complete wrapper. -/
theorem lazy_init_agrees (k : Object) (wrap : ℕ → Wrap) (steps : List LazyStep)
    (hA : Meets (LazyStep.step k) LazyStep.Admissible steps (.zeroed wrap)) :
    Always (LazyStep.step k) (Agreed k) steps (.zeroed wrap) :=
  always_of_meets (fun _ h => h.agreed) (lazyInv_step k)
    (.untouched rfl rfl rfl fun _ => trivial) hA

/-- Thread 1 finds the object untouched and loses the compare-and-swap to thread 0. -/
theorem lazy_init_agrees_race :
    Always (LazyStep.step .mutex) (Agreed .mutex)
      [⟨0, 0⟩, ⟨1, 0⟩, ⟨0, 0⟩, ⟨1, 0⟩, ⟨0, 0⟩, ⟨1, 0⟩, ⟨0, 4096⟩, ⟨0, 0⟩, ⟨0, 7⟩, ⟨1, 0⟩, ⟨0, 0⟩, ⟨1, 0⟩,
        ⟨1, 0⟩, ⟨1, 0⟩, ⟨0, 0⟩, ⟨0, 0⟩, ⟨0, 0⟩]
      (.zeroed fun _ => ⟨0, none⟩) :=
  lazy_init_agrees .mutex _ _ (by decide)

end Pthabt.Mylib
