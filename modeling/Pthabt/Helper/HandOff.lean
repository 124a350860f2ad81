import Pthabt.Lib.Run
import Mathlib.Data.Fin.Basic
import Mathlib.Data.List.Infix

/-! Hand-off of system calls to helper threads (the `hook.c` of the Argobots build). A ULT below
`N_HELPER` stores the arguments of a call in the cells of its helper, sets `ready` under
the mutex and spins on `done`, which the helper sets outside it. The steps of the two threads
are single accesses in a sequentially consistent order, with the mutex and the condition
variable of POSIX. The helper executes every request once and in order, and no
wake-up is lost. -/

namespace Pthabt.Helper

open Run

/-- A `long`. -/
abbrev Long := BitVec 64

/-- `a1` to `a7`. -/
abbrev Args := Fin 7 → Long

inductive Party where
  | ult
  | helper
  deriving DecidableEq

/-- Where the ULT is: outside; in `req_helper` before the store of `done`, the store of `arg[k]`,
the lock, the store of `ready`, the signal and the unlock; before a load of `done` in the
loop of `hook_function`; or before its load of `ret`. -/
inductive UltPc where
  | idle
  | setDone
  | setArg (k : Fin 7)
  | lock
  | setReady
  | signal
  | unlock
  | spin
  | readRet
  deriving DecidableEq

/-- Where the helper is in `do_helper`: before it has the mutex, also after a wake-up; before the
load of `ready`; before `pthread_cond_wait` and in it; before the store of `ready`, the
unlock, the load of `arg[k]`, the system call, the store of `ret` and the store of `done`. -/
inductive HelperPc where
  | lock
  | test
  | wait
  | waiting
  | clear
  | unlock
  | load (k : Fin 7)
  | call
  | setRet
  | setDone
  deriving DecidableEq

/-- A `ScHelper`, the two threads that use it with their own variables, and what was requested,
executed with which result, and returned, in order. -/
structure HandOff where
  done : Bool
  ready : Bool
  arg : Args
  ret : Long
  mutex : Option Party
  ult : UltPc
  helper : HelperPc
  /-- The arguments of the ULT's call. -/
  request : Args
  /-- The arguments that the helper has loaded. -/
  loaded : Args
  /-- What the system call returned to the helper. -/
  result : Long
  requested : List Args
  executed : List (Args × Long)
  returned : List Long

namespace HandOff

/-- After `__hook_init`; the cells are static, so the flags are 0. -/
def init (arg : Args) (ret : Long) : HandOff :=
  ⟨false, false, arg, ret, none, .idle, .lock, arg, arg, ret, [], [], []⟩

/-- The ULT makes a call that goes to the helper. -/
def call (s : HandOff) (a : Args) : HandOff :=
  if s.ult = .idle then { s with request := a, requested := s.requested ++ [a], ult := .setDone }
  else s

/-- The next step of `req_helper` and `hook_function`. A held mutex is waited for. -/
def ultStep (s : HandOff) : HandOff :=
  match s.ult with
  | .idle => s
  | .setDone => { s with done := false, ult := .setArg 0 }
  | .setArg k =>
    { s with
      arg := Function.update s.arg k (s.request k)
      ult := if k = 6 then .lock else .setArg (k + 1) }
  | .lock => if s.mutex = none then { s with mutex := some .ult, ult := .setReady } else s
  | .setReady => { s with ready := true, ult := .signal }
  | .signal =>
    { s with helper := if s.helper = .waiting then .lock else s.helper, ult := .unlock }
  | .unlock => { s with mutex := none, ult := .spin }
  | .spin => if s.done then { s with ult := .readRet } else s
  | .readRet => { s with returned := s.returned ++ [s.ret], ult := .idle }

/-- The next step of `do_helper`, the system call apart. -/
def helperStep (s : HandOff) : HandOff :=
  match s.helper with
  | .lock => if s.mutex = none then { s with mutex := some .helper, helper := .test } else s
  | .test => { s with helper := if s.ready then .clear else .wait }
  | .wait => { s with mutex := none, helper := .waiting }
  | .waiting => s
  | .clear => { s with ready := false, helper := .unlock }
  | .unlock => { s with mutex := none, helper := .load 0 }
  | .load k =>
    { s with
      loaded := Function.update s.loaded k (s.arg k)
      helper := if k = 6 then .call else .load (k + 1) }
  | .call => s
  | .setRet => { s with ret := s.result, helper := .setDone }
  | .setDone => { s with done := true, helper := .lock }

/-- `next_sys_call` of the helper returns `r`. -/
def sysCall (s : HandOff) (r : Long) : HandOff :=
  if s.helper = .call then
    { s with executed := s.executed ++ [(s.loaded, r)], result := r, helper := .setRet }
  else s

/-- A spurious wake-up. -/
def wake (s : HandOff) : HandOff := if s.helper = .waiting then { s with helper := .lock } else s

end HandOff

inductive Event where
  | call (a : Args)
  | ult
  | helper
  | sysCall (r : Long)
  | wake

def Event.next : Event → HandOff → HandOff
  | .call a, s => s.call a
  | .ult, s => s.ultStep
  | .helper, s => s.helperStep
  | .sysCall r, s => s.sysCall r
  | .wake, s => s.wake

def Event.step (e : Event) (s : HandOff) : Outcome HandOff := .ok (e.next s)

/-- The two threads and the kernel can bring the request in progress to its end, without another
wake-up than the signal. -/
def Completes (s : HandOff) (r : Long) : Prop :=
  ∃ es, (∀ e ∈ es, e = Event.ult ∨ e = .helper ∨ e = .sysCall r) ∧
    ∃ t, run Event.step es s = .ok t ∧ t.ult = .idle ∧ t.requested = s.requested

/-- Requests are executed once and in order with their own arguments, and a call returns the result
of its own execution. -/
structure HandedOff (s : HandOff) : Prop where
  executed : s.executed.map Prod.fst <+: s.requested
  pending : s.requested.length ≤ s.executed.length + 1
  returned : s.returned <+: s.executed.map Prod.snd
  answered : s.ult = .idle → s.returned.length = s.requested.length
  completes : s.ult ≠ .idle → ∀ r, Completes s r

/-! ### Invariant -/

/-- The ULT holds the mutex. -/
def UltPc.Holds : UltPc → Prop
  | .setReady | .signal | .unlock => True
  | _ => False

/-- The helper holds the mutex. -/
def HelperPc.Holds : HelperPc → Prop
  | .test | .wait | .clear | .unlock => True
  | _ => False

/-- The helper is waiting for a request, or about to. -/
def HelperPc.Parked : HelperPc → Prop
  | .lock | .test | .wait | .waiting => True
  | _ => False

/-- The mutex is held by the thread that is between its lock and its unlock. -/
structure Locked (s : HandOff) : Prop where
  ult : s.mutex = some .ult ↔ s.ult.Holds
  helper : s.mutex = some .helper ↔ s.helper.Holds

/-- How far the ULT has stored its request. -/
def Prepared (s : HandOff) : Prop :=
  match s.ult with
  | .setDone => True
  | .setArg k => s.done = false ∧ ∀ j < k, s.arg j = s.request j
  | .lock | .setReady => s.done = false ∧ s.arg = s.request
  | _ => False

/-- After the ULT has set `ready`; a helper that still waits will be signalled. -/
def Posted (s : HandOff) : Prop :=
  match s.helper with
  | .lock | .test => s.ult = .signal ∨ s.ult = .unlock ∨ s.ult = .spin
  | .waiting => s.ult = .signal
  | .clear => s.ult = .spin
  | _ => False

/-- How far the helper has loaded the request. -/
def Loading (s : HandOff) : Prop :=
  match s.helper with
  | .unlock => True
  | .load k => ∀ j < k, s.loaded j = s.request j
  | .call => s.loaded = s.request
  | _ => False

/-- The request in progress is not executed yet, all earlier ones are answered. -/
structure Awaits (s : HandOff) : Prop where
  requested : s.requested = s.executed.map Prod.fst ++ [s.request]
  returned : s.returned = s.executed.map Prod.snd

/-- The request in progress was executed with result `r`. -/
structure Executed (s : HandOff) (r : Long) : Prop where
  requested : s.requested = s.executed.map Prod.fst
  returned : s.executed.map Prod.snd = s.returned ++ [r]

/-- Where the request in progress is. -/
inductive Stage (s : HandOff) : Prop where
  | idle (ult : s.ult = .idle) (helper : s.helper.Parked) (ready : s.ready = false)
      (requested : s.requested = s.executed.map Prod.fst)
      (returned : s.returned = s.executed.map Prod.snd)
  | preparing (ult : Prepared s) (helper : s.helper.Parked) (ready : s.ready = false)
      (awaits : Awaits s)
  | posted (pcs : Posted s) (ready : s.ready = true) (done : s.done = false)
      (arg : s.arg = s.request) (awaits : Awaits s)
  | running (ult : s.ult = .spin) (helper : Loading s) (ready : s.ready = false)
      (done : s.done = false) (arg : s.arg = s.request) (awaits : Awaits s)
  | finished (ult : s.ult = .spin) (helper : s.helper = .setRet ∨ s.helper = .setDone ∧ s.ret = s.result)
      (ready : s.ready = false) (done : s.done = false) (executed : Executed s s.result)
  | reported (ult : s.ult = .spin ∨ s.ult = .readRet) (helper : s.helper.Parked)
      (ready : s.ready = false) (done : s.done = true) (executed : Executed s s.ret)

structure HandInv (s : HandOff) : Prop where
  locked : Locked s
  stage : Stage s

theorem lt_succ_arg {j k : Fin 7} (hk : k ≠ 6) : j < k + 1 ↔ j < k ∨ j = k := by
  revert j k
  decide

theorem lt_or_last (j : Fin 7) : j < 6 ∨ j = 6 := by
  revert j
  decide

/-- One more argument was copied. -/
theorem copied_succ {f g : Args} {k : Fin 7} (h : ∀ j < k, f j = g j) (hk : k ≠ 6) :
    ∀ j < k + 1, Function.update f k (g k) j = g j := by
  intro j hj
  by_cases hjk : j = k
  · subst hjk
    rw [Function.update_self]
  · rw [Function.update_of_ne hjk]
    exact h j (((lt_succ_arg hk).mp hj).resolve_right hjk)

/-- The last argument was copied. -/
theorem copied_last {f g : Args} (h : ∀ j < 6, f j = g j) : Function.update f 6 (g 6) = g := by
  funext j
  rcases lt_or_last j with hj | rfl
  · rw [Function.update_of_ne (Fin.ne_of_lt hj)]
    exact h j hj
  · rw [Function.update_self]

/-! ### Single steps -/

theorem Locked.exclusive {s : HandOff} (h : Locked s) (hu : s.ult.Holds) : ¬ s.helper.Holds := by
  intro hh
  have := (h.ult.mpr hu).symm.trans (h.helper.mpr hh)
  cases this

theorem locked_ult {s : HandOff} (h : Locked s) : Locked s.ultStep := by
  have hex := h.exclusive
  obtain ⟨hu, hh⟩ := h
  unfold HandOff.ultStep
  cases hpc : s.ult <;> rw [hpc] at hu hex
  case lock =>
    dsimp only
    split_ifs with hm
    · rw [hm] at hh
      exact ⟨by simp [UltPc.Holds], by simpa using hh⟩
    · exact ⟨by rw [hpc]; exact hu, hh⟩
  case unlock => exact ⟨by simp [UltPc.Holds], by simpa using hex trivial⟩
  case setArg k =>
    dsimp only
    refine ⟨?_, hh⟩
    split_ifs <;> exact hu
  case signal =>
    dsimp only
    refine ⟨hu, hh.trans ?_⟩
    split_ifs with hw
    · rw [hw]
      rfl
    · rfl
  case spin =>
    dsimp only
    split_ifs
    · exact ⟨hu, hh⟩
    · exact ⟨by rw [hpc]; exact hu, hh⟩
  case idle => exact ⟨by rw [hpc]; exact hu, hh⟩
  all_goals exact ⟨hu, hh⟩

theorem locked_helper {s : HandOff} (h : Locked s) : Locked s.helperStep := by
  have hex := h.exclusive
  obtain ⟨hu, hh⟩ := h
  unfold HandOff.helperStep
  cases hpc : s.helper <;> rw [hpc] at hh hex
  case lock =>
    dsimp only
    split_ifs with hm
    · rw [hm] at hu
      exact ⟨by simpa using hu, by simp [HelperPc.Holds]⟩
    · exact ⟨hu, by rw [hpc]; exact hh⟩
  case test =>
    dsimp only
    refine ⟨hu, ?_⟩
    split_ifs <;> exact hh
  case wait => exact ⟨by simpa using fun hc => hex hc trivial, by simp [HelperPc.Holds]⟩
  case unlock => exact ⟨by simpa using fun hc => hex hc trivial, by simp [HelperPc.Holds]⟩
  case load k =>
    dsimp only
    refine ⟨hu, ?_⟩
    split_ifs <;> exact hh
  case waiting => exact ⟨hu, by rw [hpc]; exact hh⟩
  case call => exact ⟨hu, by rw [hpc]; exact hh⟩
  all_goals exact ⟨hu, hh⟩

theorem locked_next (e : Event) {s : HandOff} (h : Locked s) : Locked (e.next s) := by
  have hult := locked_ult h
  have hhelper := locked_helper h
  obtain ⟨hu, hh⟩ := h
  cases e with
  | ult => exact hult
  | helper => exact hhelper
  | call a =>
    simp only [Event.next, HandOff.call]
    split_ifs with hi
    · rw [hi] at hu
      exact ⟨hu, hh⟩
    · exact ⟨hu, hh⟩
  | sysCall r =>
    simp only [Event.next, HandOff.sysCall]
    split_ifs with hc
    · rw [hc] at hh
      exact ⟨hu, hh⟩
    · exact ⟨hu, hh⟩
  | wake =>
    simp only [Event.next, HandOff.wake]
    split_ifs with hw
    · rw [hw] at hh
      exact ⟨hu, hh⟩
    · exact ⟨hu, hh⟩

theorem stage_call {s : HandOff} (h : Stage s) (a : Args) : Stage (s.call a) := by
  unfold HandOff.call
  split_ifs with hi
  · cases h with
    | idle _ hh hr hreq hret =>
      exact .preparing trivial hh hr ⟨by dsimp only; rw [hreq], hret⟩
    | preparing hu => simp [Prepared, hi] at hu
    | posted hp => cases hh : s.helper <;> simp [Posted, hh, hi] at hp
    | running hu => simp [hi] at hu
    | finished hu => simp [hi] at hu
    | reported hu => simp [hi] at hu
  · exact h

/-- The ULT stores its request; it sets `ready` while the helper does not hold the mutex. -/
theorem stage_prepare {s : HandOff} (hl : Locked s) (hu : Prepared s) (hh : s.helper.Parked)
    (hr : s.ready = false) (ha : Awaits s) : Stage s.ultStep := by
  have hex := hl.exclusive
  obtain ⟨hreq, hret⟩ := ha
  unfold Prepared at hu
  unfold HandOff.ultStep
  cases hpc : s.ult <;> rw [hpc] at hu hex <;> dsimp only at hu ⊢ <;> try exact hu.elim
  case setDone => exact .preparing ⟨rfl, fun j hj => absurd hj (Fin.not_lt_zero j)⟩ hh hr ⟨hreq, hret⟩
  case setArg k =>
    obtain ⟨hd, hcopied⟩ := hu
    by_cases hk : k = 6
    · subst hk
      rw [if_pos rfl]
      exact .preparing ⟨hd, copied_last hcopied⟩ hh hr ⟨hreq, hret⟩
    · rw [if_neg hk]
      exact .preparing ⟨hd, copied_succ hcopied hk⟩ hh hr ⟨hreq, hret⟩
  case lock =>
    split_ifs
    · exact .preparing hu hh hr ⟨hreq, hret⟩
    · exact .preparing (by rw [Prepared, hpc]; exact hu) hh hr ⟨hreq, hret⟩
  case setReady =>
    refine .posted ?_ rfl hu.1 hu.2 ⟨hreq, hret⟩
    unfold Posted
    dsimp only
    cases hpc' : s.helper <;> rw [hpc'] at hh hex
    case lock => exact Or.inl rfl
    case test => exact Or.inl rfl
    case wait => exact absurd trivial (hex trivial)
    all_goals exact hh.elim

/-- The signal reaches a helper that waits. -/
theorem stage_signal {s : HandOff} (hp : Posted s) (hr : s.ready = true) (hd : s.done = false)
    (harg : s.arg = s.request) (ha : Awaits s) : Stage s.ultStep := by
  obtain ⟨hreq, hret⟩ := ha
  unfold Posted at hp
  unfold HandOff.ultStep
  cases hpc : s.ult <;> rw [hpc] at hp <;> dsimp only
  case signal =>
    refine .posted ?_ hr hd harg ⟨hreq, hret⟩
    cases hpc' : s.helper <;> rw [hpc'] at hp <;> simp [Posted] at hp ⊢
  case unlock =>
    refine .posted ?_ hr hd harg ⟨hreq, hret⟩
    cases hpc' : s.helper <;> rw [hpc'] at hp <;> simp [Posted] at hp ⊢
  case spin =>
    simp only [hd, Bool.false_eq_true, if_false]
    exact .posted (by unfold Posted; rw [hpc]; exact hp) hr hd harg ⟨hreq, hret⟩
  all_goals cases hpc' : s.helper <;> rw [hpc'] at hp <;> simp at hp

theorem stage_ult {s : HandOff} (hl : Locked s) (h : Stage s) : Stage s.ultStep := by
  cases h with
  | idle hu hh hr hreq hret =>
    have he : s.ultStep = s := by simp only [HandOff.ultStep, hu]
    rw [he]
    exact .idle hu hh hr hreq hret
  | preparing hu hh hr ha => exact stage_prepare hl hu hh hr ha
  | posted hp hr hd harg ha => exact stage_signal hp hr hd harg ha
  | running hu hh hr hd harg ha =>
    have he : s.ultStep = s := by simp [HandOff.ultStep, hu, hd]
    rw [he]
    exact .running hu hh hr hd harg ha
  | finished hu hh hr hd hx =>
    have he : s.ultStep = s := by simp [HandOff.ultStep, hu, hd]
    rw [he]
    exact .finished hu hh hr hd hx
  | reported hu hh hr hd hx =>
    obtain ⟨hreq, hret⟩ := hx
    rcases hu with hu | hu
    · have he : s.ultStep = { s with ult := .readRet } := by simp [HandOff.ultStep, hu, hd]
      rw [he]
      exact .reported (Or.inr rfl) hh hr hd ⟨hreq, hret⟩
    · have he : s.ultStep = { s with returned := s.returned ++ [s.ret], ult := .idle } := by
        simp only [HandOff.ultStep, hu]
      rw [he]
      exact .idle rfl hh hr hreq hret.symm

/-- Without a request the helper goes on waiting, and changes nothing else. -/
theorem parked_helperStep {s : HandOff} (hh : s.helper.Parked) (hr : s.ready = false) :
    ∃ m pc, s.helperStep = { s with mutex := m, helper := pc } ∧ pc.Parked := by
  unfold HandOff.helperStep
  cases hpc : s.helper <;> rw [hpc] at hh <;> try exact hh.elim
  case lock =>
    dsimp only
    split_ifs
    · exact ⟨_, _, rfl, trivial⟩
    · exact ⟨s.mutex, s.helper, rfl, by rw [hpc]; trivial⟩
  case test => exact ⟨s.mutex, .wait, by simp [hr], trivial⟩
  case wait => exact ⟨_, _, rfl, trivial⟩
  case waiting => exact ⟨s.mutex, s.helper, rfl, by rw [hpc]; trivial⟩

/-- The helper finds `ready` set while the ULT does not hold the mutex. -/
theorem stage_take {s : HandOff} (hl : Locked s) (hp : Posted s) (hr : s.ready = true)
    (hd : s.done = false) (harg : s.arg = s.request) (ha : Awaits s) : Stage s.helperStep := by
  have hex := hl.exclusive
  obtain ⟨hreq, hret⟩ := ha
  unfold Posted at hp
  unfold HandOff.helperStep
  cases hpc : s.helper <;> rw [hpc] at hp hex <;> dsimp only at hp ⊢ <;> try exact hp.elim
  case lock =>
    split_ifs
    · exact .posted hp hr hd harg ⟨hreq, hret⟩
    · exact .posted (by rw [Posted, hpc]; exact hp) hr hd harg ⟨hreq, hret⟩
  case test =>
    rw [if_pos hr]
    refine .posted ?_ hr hd harg ⟨hreq, hret⟩
    rcases hp with hu | hu | hu
    · exact absurd trivial (hex (by rw [hu]; trivial))
    · exact absurd trivial (hex (by rw [hu]; trivial))
    · exact hu
  case waiting => exact .posted (by rw [Posted, hpc]; exact hp) hr hd harg ⟨hreq, hret⟩
  case clear => exact .running hp trivial rfl hd harg ⟨hreq, hret⟩

/-- The helper loads the arguments, which the spinning ULT does not store to. -/
theorem stage_load {s : HandOff} (hu : s.ult = .spin) (hh : Loading s) (hr : s.ready = false)
    (hd : s.done = false) (harg : s.arg = s.request) (ha : Awaits s) : Stage s.helperStep := by
  obtain ⟨hreq, hret⟩ := ha
  unfold Loading at hh
  unfold HandOff.helperStep
  cases hpc : s.helper <;> rw [hpc] at hh <;> dsimp only at hh ⊢ <;> try exact hh.elim
  case unlock =>
    exact .running hu (fun j hj => absurd hj (Fin.not_lt_zero j)) hr hd harg ⟨hreq, hret⟩
  case load k =>
    rw [harg]
    by_cases hk : k = 6
    · subst hk
      rw [if_pos rfl]
      exact .running hu (copied_last hh) hr hd rfl ⟨hreq, hret⟩
    · rw [if_neg hk]
      exact .running hu (copied_succ hh hk) hr hd rfl ⟨hreq, hret⟩
  case call => exact .running hu (by rw [Loading, hpc]; exact hh) hr hd harg ⟨hreq, hret⟩

theorem stage_helper {s : HandOff} (hl : Locked s) (h : Stage s) : Stage s.helperStep := by
  cases h with
  | idle hu hh hr hreq hret =>
    obtain ⟨m, pc, he, hpc⟩ := parked_helperStep hh hr
    rw [he]
    exact .idle hu hpc hr hreq hret
  | preparing hu hh hr ha =>
    obtain ⟨m, pc, he, hpc⟩ := parked_helperStep hh hr
    rw [he]
    exact .preparing hu hpc hr ⟨ha.requested, ha.returned⟩
  | posted hp hr hd harg ha => exact stage_take hl hp hr hd harg ha
  | running hu hh hr hd harg ha => exact stage_load hu hh hr hd harg ha
  | finished hu hh hr hd hx =>
    obtain ⟨hreq, hret⟩ := hx
    rcases hh with hh | ⟨hh, hres⟩
    · have he : s.helperStep = { s with ret := s.result, helper := .setDone } := by
        simp only [HandOff.helperStep, hh]
      rw [he]
      exact .finished hu (Or.inr ⟨rfl, rfl⟩) hr hd ⟨hreq, hret⟩
    · have he : s.helperStep = { s with done := true, helper := .lock } := by
        simp only [HandOff.helperStep, hh]
      rw [he]
      exact .reported (Or.inl hu) trivial hr rfl ⟨hreq, by dsimp only; rw [hres]; exact hret⟩
  | reported hu hh hr hd hx =>
    obtain ⟨m, pc, he, hpc⟩ := parked_helperStep hh hr
    rw [he]
    exact .reported hu hpc hr hd ⟨hx.requested, hx.returned⟩

/-- Only a helper that has loaded the request in progress makes a system call. -/
theorem stage_sysCall {s : HandOff} (h : Stage s) (r : Long) : Stage (s.sysCall r) := by
  unfold HandOff.sysCall
  split_ifs with hc
  · cases h with
    | idle _ hh => simp [HelperPc.Parked, hc] at hh
    | preparing _ hh => simp [HelperPc.Parked, hc] at hh
    | posted hp => simp [Posted, hc] at hp
    | running hu hh hr hd _ ha =>
      obtain ⟨hreq, hret⟩ := ha
      simp only [Loading, hc] at hh
      refine .finished hu (Or.inl rfl) hr hd ⟨?_, ?_⟩
      · rw [hreq, ← hh, List.map_append]
        rfl
      · rw [hret, List.map_append]
        rfl
    | finished _ hh => simp [hc] at hh
    | reported _ hh => simp [HelperPc.Parked, hc] at hh
  · exact h

/-- A spurious wake-up is one that any wait allows for. -/
theorem stage_wake {s : HandOff} (h : Stage s) : Stage s.wake := by
  unfold HandOff.wake
  split_ifs with hw
  · cases h with
    | idle hu _ hr hreq hret => exact .idle hu trivial hr hreq hret
    | preparing hu _ hr ha => exact .preparing hu trivial hr ⟨ha.requested, ha.returned⟩
    | posted hp hr hd harg ha =>
      simp only [Posted, hw] at hp
      exact .posted (Or.inl hp) hr hd harg ⟨ha.requested, ha.returned⟩
    | running _ hh => simp [Loading, hw] at hh
    | finished _ hh => simp [hw] at hh
    | reported hu _ hr hd hx => exact .reported hu trivial hr hd ⟨hx.requested, hx.returned⟩
  · exact h

theorem handInv_next (e : Event) {s : HandOff} (h : HandInv s) : HandInv (e.next s) := by
  refine ⟨locked_next e h.locked, ?_⟩
  cases e with
  | call a => exact stage_call h.stage a
  | ult => exact stage_ult h.locked h.stage
  | helper => exact stage_helper h.locked h.stage
  | sysCall r => exact stage_sysCall h.stage r
  | wake => exact stage_wake h.stage

/-! ### No wake-up is lost -/

/-- How much the ULT has left to do. -/
def UltPc.rank : UltPc → ℕ
  | .setDone => 16
  | .setArg k => 15 - k
  | .lock => 8
  | .setReady => 7
  | .signal => 6
  | .unlock => 5
  | .spin => 2
  | .readRet => 1
  | .idle => 0

/-- How far the helper is from giving the mutex up, when it has nothing to do. -/
def HelperPc.toWait : HelperPc → ℕ
  | .test => 2
  | .wait => 1
  | _ => 0

/-- How far the helper is from the end of a request. -/
def HelperPc.toDone : HelperPc → ℕ
  | .lock => 14
  | .test => 13
  | .clear => 12
  | .unlock => 11
  | .load k => 10 - k
  | .call => 3
  | .setRet => 2
  | .setDone => 1
  | .wait | .waiting => 0

/-- What is left of the request in progress. -/
def rank (s : HandOff) : ℕ :=
  20 * s.ult.rank +
    if s.ult = .spin then if s.done then 0 else s.helper.toDone else s.helper.toWait

theorem toWait_le (pc : HelperPc) : pc.toWait ≤ 2 := by
  cases pc <;> simp [HelperPc.toWait]

theorem toDone_le (pc : HelperPc) : pc.toDone ≤ 14 := by
  cases pc <;> simp [HelperPc.toDone]
  omega

theorem rank_lt {s : HandOff} : rank s < 20 * s.ult.rank + 20 := by
  have := toWait_le s.helper
  have := toDone_le s.helper
  unfold rank
  split_ifs <;> omega

/-- A step of the ULT to a place nearer to the end. -/
theorem rank_ult {s t : HandOff} (h : t.ult.rank < s.ult.rank) : rank t < rank s := by
  have := rank_lt (s := t)
  unfold rank at this ⊢
  omega

theorem rank_next_arg {k : Fin 7} :
    (if k = 6 then UltPc.lock else .setArg (k + 1)).rank < (UltPc.setArg k).rank := by
  revert k
  decide

theorem toDone_next_load {k : Fin 7} :
    (if k = 6 then HelperPc.call else .load (k + 1)).toDone < (HelperPc.load k).toDone := by
  revert k
  decide

/-- A step of the helper for a request that is not done. -/
theorem rank_helper {s t : HandOff} (hs : s.ult = .spin) (hd : s.done = false) (ht : t.ult = .spin)
    (h : t.done = true ∧ 0 < s.helper.toDone ∨ t.helper.toDone < s.helper.toDone) :
    rank t < rank s := by
  unfold rank
  rw [hs, ht, hd]
  simp only [if_true, Bool.false_eq_true, if_false]
  rcases h with ⟨htd, h⟩ | h
  · rw [htd, if_pos rfl]
    omega
  · split_ifs <;> omega

/-- The step of one thread or of the kernel, with result `r`, that the request waits for. -/
def Advances (s : HandOff) (r : Long) : Prop :=
  ∃ e : Event, (e = .ult ∨ e = .helper ∨ e = .sysCall r) ∧ rank (e.next s) < rank s

theorem advances_preparing {s : HandOff} (hl : Locked s) (hu : Prepared s) (hh : s.helper.Parked)
    (hr : s.ready = false) (r : Long) : Advances s r := by
  by_cases hlock : s.ult = .lock
  · by_cases hm : s.mutex = none
    · refine ⟨.ult, Or.inl rfl, rank_ult ?_⟩
      simp [Event.next, HandOff.ultStep, hlock, hm, UltPc.rank]
    · -- the helper has the mutex and found nothing to do
      have hhelper : s.helper.Holds := by
        rw [← hl.helper]
        have hno : s.mutex ≠ some .ult := by
          rw [Ne, hl.ult, hlock]
          exact id
        cases hmu : s.mutex with
        | none => exact absurd hmu hm
        | some p =>
          cases p with
          | ult => exact absurd hmu hno
          | helper => rfl
      refine ⟨.helper, Or.inr (Or.inl rfl), ?_⟩
      cases hpc : s.helper <;> rw [hpc] at hh hhelper <;> try exact hh.elim
      case test => simp [Event.next, HandOff.helperStep, hpc, hr, rank, hlock, HelperPc.toWait]
      case wait => simp [Event.next, HandOff.helperStep, hpc, rank, hlock, HelperPc.toWait]
      all_goals exact hhelper.elim
  · refine ⟨.ult, Or.inl rfl, rank_ult ?_⟩
    unfold Prepared at hu
    cases hpc : s.ult <;> rw [hpc] at hu hlock <;> try exact hu.elim
    case lock => exact absurd rfl hlock
    case setArg k =>
      simp only [Event.next, HandOff.ultStep, hpc]
      exact rank_next_arg
    all_goals simp [Event.next, HandOff.ultStep, hpc, UltPc.rank]

theorem advances_posted {s : HandOff} (hl : Locked s) (hp : Posted s) (hr : s.ready = true)
    (hd : s.done = false) (r : Long) : Advances s r := by
  by_cases hu : s.ult = .spin
  · refine ⟨.helper, Or.inr (Or.inl rfl), ?_⟩
    have hult : s.mutex ≠ some .ult := by
      rw [Ne, hl.ult, hu]
      exact id
    have hhelper := hl.helper
    unfold Posted at hp
    cases hpc : s.helper <;> rw [hpc] at hp hhelper <;> try exact hp.elim
    case lock =>
      have hm : s.mutex = none := by
        cases hmu : s.mutex with
        | none => rfl
        | some p =>
          cases p with
          | ult => exact absurd hmu hult
          | helper => exact (hhelper.mp hmu).elim
      apply rank_helper hu hd <;> simp [Event.next, HandOff.helperStep, hpc, hm, hu, HelperPc.toDone]
    case test =>
      apply rank_helper hu hd <;> simp [Event.next, HandOff.helperStep, hpc, hr, hu, HelperPc.toDone]
    case waiting =>
      rw [hu] at hp
      cases hp
    case clear =>
      apply rank_helper hu hd <;> simp [Event.next, HandOff.helperStep, hpc, hu, HelperPc.toDone]
  · refine ⟨.ult, Or.inl rfl, rank_ult ?_⟩
    unfold Posted at hp
    cases hpc : s.ult <;> rw [hpc] at hp hu
    case signal => simp [Event.next, HandOff.ultStep, hpc, UltPc.rank]
    case unlock => simp [Event.next, HandOff.ultStep, hpc, UltPc.rank]
    case spin => exact absurd rfl hu
    all_goals cases hpc' : s.helper <;> rw [hpc'] at hp <;> simp at hp

theorem advances_running {s : HandOff} (hu : s.ult = .spin) (hh : Loading s) (hd : s.done = false)
    (r : Long) : Advances s r := by
  unfold Loading at hh
  by_cases hc : s.helper = .call
  · refine ⟨.sysCall r, Or.inr (Or.inr rfl), ?_⟩
    apply rank_helper hu hd <;> simp [Event.next, HandOff.sysCall, hc, hu, HelperPc.toDone]
  · refine ⟨.helper, Or.inr (Or.inl rfl), ?_⟩
    cases hpc : s.helper <;> rw [hpc] at hh hc <;> try exact hh.elim
    case unlock =>
      apply rank_helper hu hd <;> simp [Event.next, HandOff.helperStep, hpc, hu, HelperPc.toDone]
    case load k =>
      apply rank_helper hu hd
      · simp [Event.next, HandOff.helperStep, hpc, hu]
      · right
        simp only [Event.next, HandOff.helperStep, hpc]
        exact toDone_next_load
    case call => exact absurd rfl hc

/-- While a request is in progress, one of the threads can go on with it. -/
theorem HandInv.advances {s : HandOff} (h : HandInv s) (hu : s.ult ≠ .idle) (r : Long) :
    Advances s r := by
  cases h.stage with
  | idle hi => exact absurd hi hu
  | preparing hu hh hr _ => exact advances_preparing h.locked hu hh hr r
  | posted hp hr hd _ _ => exact advances_posted h.locked hp hr hd r
  | running hu hh _ hd _ _ => exact advances_running hu hh hd r
  | finished hu hh _ hd _ =>
    refine ⟨.helper, Or.inr (Or.inl rfl), ?_⟩
    rcases hh with hh | ⟨hh, -⟩
    · apply rank_helper hu hd <;> simp [Event.next, HandOff.helperStep, hh, hu, HelperPc.toDone]
    · apply rank_helper hu hd <;> simp [Event.next, HandOff.helperStep, hh, hu, HelperPc.toDone]
  | reported hu _ _ hd _ =>
    refine ⟨.ult, Or.inl rfl, rank_ult ?_⟩
    rcases hu with hu | hu <;> simp [Event.next, HandOff.ultStep, hu, hd, UltPc.rank]

/-- Only a call of the ULT makes a request. -/
theorem requested_next {e : Event} {r : Long} (he : e = .ult ∨ e = .helper ∨ e = .sysCall r)
    (s : HandOff) : (e.next s).requested = s.requested := by
  rcases he with rfl | rfl | rfl
  · simp only [Event.next, HandOff.ultStep]
    cases s.ult <;> dsimp only <;> split_ifs <;> rfl
  · simp only [Event.next, HandOff.helperStep]
    cases s.helper <;> dsimp only
    split_ifs <;> rfl
  · simp only [Event.next, HandOff.sysCall]
    split_ifs <;> rfl

theorem completes_of_rank (r : Long) (n : ℕ) :
    ∀ s : HandOff, HandInv s → rank s = n → Completes s r := by
  induction n using Nat.strong_induction_on with
  | _ n ih =>
    intro s h hn
    by_cases hu : s.ult = .idle
    · exact ⟨[], by simp, s, rfl, hu, rfl⟩
    · obtain ⟨e, he, hlt⟩ := h.advances hu r
      obtain ⟨es, hes, t, hrun, ht, hreq⟩ := ih (rank (e.next s)) (hn ▸ hlt) _ (handInv_next e h) rfl
      refine ⟨e :: es, ?_, t, hrun, ht, hreq.trans (requested_next he s)⟩
      intro e' he'
      rcases List.mem_cons.mp he' with rfl | he'
      · exact he
      · exact hes e' he'

/-! ### Runs -/

theorem HandInv.handedOff {s : HandOff} (h : HandInv s) : HandedOff s := by
  have hc : s.ult ≠ .idle → ∀ r, Completes s r := fun _ r => completes_of_rank r _ s h rfl
  cases h.stage with
  | idle hu _ _ hreq hret =>
    exact ⟨by rw [hreq], by rw [hreq]; simp, by rw [hret], fun _ => by rw [hreq, hret]; simp, hc⟩
  | preparing hu _ _ ha =>
    refine ⟨by rw [ha.requested]; exact List.prefix_append _ _, by rw [ha.requested]; simp,
      by rw [ha.returned], fun hi => ?_, hc⟩
    simp [Prepared, hi] at hu
  | posted hp _ _ _ ha =>
    refine ⟨by rw [ha.requested]; exact List.prefix_append _ _, by rw [ha.requested]; simp,
      by rw [ha.returned], fun hi => ?_, hc⟩
    cases hh : s.helper <;> simp [Posted, hh, hi] at hp
  | running hu _ _ _ _ ha =>
    refine ⟨by rw [ha.requested]; exact List.prefix_append _ _, by rw [ha.requested]; simp,
      by rw [ha.returned], fun hi => ?_, hc⟩
    rw [hu] at hi
    cases hi
  | finished hu _ _ _ hx =>
    refine ⟨by rw [hx.requested], by rw [hx.requested]; simp,
      by rw [hx.returned]; exact List.prefix_append _ _, fun hi => ?_, hc⟩
    rw [hu] at hi
    cases hi
  | reported hu _ _ _ hx =>
    refine ⟨by rw [hx.requested], by rw [hx.requested]; simp,
      by rw [hx.returned]; exact List.prefix_append _ _, fun hi => ?_, hc⟩
    rcases hu with hu | hu <;> rw [hu] at hi <;> cases hi

/-- One step of the ULT, the helper or the kernel, in any order. -/
theorem handInv_step (e : Event) (s : HandOff) (h : HandInv s) : (e.step s).Safe HandInv :=
  handInv_next e h

theorem init_handInv (arg : Args) (ret : Long) : HandInv (.init arg ret) where
  locked := ⟨by simp [HandOff.init, UltPc.Holds], by simp [HandOff.init, HelperPc.Holds]⟩
  stage := .idle rfl trivial rfl rfl rfl

/-- In every interleaving, system calls are handed off and answered one by one. -/
theorem handed_off (arg : Args) (ret : Long) (es : List Event) :
    Always Event.step HandedOff es (.init arg ret) :=
  always_of_inv (fun _ h => h.handedOff) handInv_step es (init_handInv arg ret)

end Pthabt.Helper
