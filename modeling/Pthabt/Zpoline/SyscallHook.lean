import Pthabt.Zpoline.AsmHook
import Pthabt.Zpoline.Bitmap
import Pthabt.Zpoline.Trampoline

/-! `syscall_hook` (`zpoline.c`), and the whole way of a system call of the program from the
`callq *%rax` that stands in its place to the hook function and back. -/

namespace Pthabt.Zpoline

open Lib Memory X86

variable {ω ε : Type*}

def nrRtSigreturn : Word := 15
def nrClone : Word := 56
def nrClone3 : Word := 435
def enosys : Word := 38
def cloneVm : Word := 0x100

/-- There is no result when the caller's address is not that of a replaced instruction: an assertion
fails or `int3` stops the program. -/
def syscallHook (bm : Bitmap) (hookFn : CFun 7 ε) (rdi rsi rdx _rcx r8 r9 r10OnStack raxOnStack retptr : Word)
    (m : Mem) (e : ε) : Option (Word × Mem × ε) :=
  match isReplacedInstructionAddr bm (retptr - 2) with
  | some true =>
    -- workaround to trigger the fallback to clone
    if raxOnStack = nrClone3 then some (-enosys, m, e)
    else if raxOnStack = nrClone ∧ rdi &&& cloneVm ≠ 0 then
      -- pthread creation: push return address to the stack
      hookFn ![raxOnStack, rdi, rsi - 8, rdx, r10OnStack, r8, r9] (store m (rsi - 8) retptr) e
    else hookFn ![raxOnStack, rdi, rsi, rdx, r10OnStack, r8, r9] m e
  | _ => none

/-- The same as a function of its nine arguments. -/
def syscallHookFun (bm : Bitmap) (hookFn : CFun 7 ε) : CFun 9 ε := fun a =>
  syscallHook bm hookFn (a 0) (a 1) (a 2) (a 3) (a 4) (a 5) (a 6) (a 7) (a 8)

/-- The numbers for which the trampoline pushes no `0x90` that `asm_syscall_hook` would discard. -/
def Discards (n : ℕ) : Prop := n % 3 = 1 ∧ 405 ≤ n

instance (n : ℕ) : Decidable (Discards n) := inferInstanceAs (Decidable (_ ∧ _))

variable {M : Machine ω ε} {L : Labels} {s : State ε} {next : Word}

/-- From the replaced instruction to `skip_pop`. The return address is lost for some numbers. -/
theorem call_lands (hT : HasTrampoline M (L.asmSyscallHook 0)) (hM : M.Holds (asmSyscallHook L) L.asmSyscallHook)
    (hfetch : M.fetch s.rip = some (.callReg .rax, next)) (hn : (s.reg .rax).toNat ≤ 512) :
    ∃ t, M.Reaches s t ∧ t.rip = L.skipPop ∧
      t.reg .rsp = s.reg .rsp - (if Discards (s.reg .rax).toNat then 0 else 8) ∧
      (∀ q, q ≠ .rsp → t.reg q = s.reg q) ∧ t.env = s.env ∧ EqAbove (s.reg .rsp) 40 s.mem t.mem ∧
      load t.mem (s.reg .rsp - 8) = next := by
  have hstep := Machine.step_of_fetch hfetch
  have haddr : s.reg .rax = addr (s.reg .rax).toNat := by simp [addr]
  obtain ⟨u, hu, hurip, hutop, husp, hureg, huenv, humem⟩ :=
    trampoline_reaches hT (s := { s.push next with rip := s.reg .rax }) hn haddr
  obtain ⟨t, ht, hrip, hax, hsp, hreg, henv, hmem⟩ := asm_entry hM hurip
  simp only [State.push_reg, State.push_mem, State.push_env, Function.update_self] at husp hureg huenv humem hutop
  rw [Function.update_of_ne (by simp)] at hutop
  rw [hutop] at hax hsp
  have hup : (s.reg .rsp - 8 - (u.reg .rsp + 8)).toNat ≤ 8 := by
    rw [husp]
    split <;> bv_omega
  refine ⟨t, .of_step hstep (hu.trans ht), hrip, ?_, ?_, henv.trans huenv, ?_, ?_⟩
  · rw [hsp, husp]
    by_cases h3 : (s.reg .rax).toNat % 3 = 1
    · rcases Nat.lt_or_ge (s.reg .rax).toNat 405 with hlt | hge
      · rw [if_pos ⟨h3, hlt⟩, if_pos h3, if_neg fun h => absurd h.2 (by omega)]
        bv_omega
      · rw [if_neg fun h => absurd h.2 (by omega), if_pos h3, if_pos ⟨h3, hge⟩]
        bv_omega
    · rw [if_neg fun h => h3 h.1, if_neg h3, if_neg fun h => h3 h.1]
      bv_omega
  · intro q hq
    by_cases hqa : q = .rax
    · rw [hqa, hax]
    · rw [hreg q hqa hq, hureg q hqa hq, Function.update_of_ne hq]
  · have hstore := eqAbove_store (m := s.mem) (p := s.reg .rsp) (a := s.reg .rsp - 8) (K := 40) (by bv_omega)
      (by bv_omega) next
    exact hstore.trans ((humem.mono (by bv_omega) (by omega)).trans (hmem.mono (by bv_omega) (by omega)))
  · rw [hmem.load_eq (by bv_omega), humem.load_eq (by bv_omega), load_store]

/-- Where control goes back to, the stack pointer then, and the arguments in between. -/
def resumesAt (s : State ε) (next : Word) : Word := if Discards (s.reg .rax).toNat then s.top else next

def resumesWith (s : State ε) : Word := s.reg .rsp + if Discards (s.reg .rax).toNat then 8 else 0

variable {f : CFun 9 ε} {k K : ℕ} {r : Word × Mem × ε}

/-! ### A small machine -/

/-- Places for the code. -/
def smallLabels : Labels := ⟨fun i => addr (0x2000 + i), fun i => addr (0x3000 + i), 0x4000⟩

/-- A machine with the trampoline and the code of this repository, in which one instruction is the compiled
`syscall_hook` that computes `f`, and the kernel computes `sys`. -/
def smallMachine (f : CFun 9 ε) (sys : CFun 7 ε) (program : Word → Option (Instr Unit × Word)) : Machine Unit ε where
  fetch a :=
    if a.toNat < 0x1000 then decode (setupTrampoline (addr 0x2000)) a
    else if 0x2000 ≤ a.toNat ∧ a.toNat < 0x2027 then
      (asmSyscallHook smallLabels)[a.toNat - 0x2000]?.map fun i => (i, a + 1)
    else if 0x3000 ≤ a.toNat ∧ a.toNat < 0x3009 then enterSyscall[a.toNat - 0x3000]?.map fun i => (i, a + 1)
    else if a = 0x4000 then some (.other (), 0)
    else program a
  kernel s :=
    (sys ![s.reg .rax, s.reg .rdi, s.reg .rsi, s.reg .rdx, s.reg .r10, s.reg .r8, s.reg .r9] s.mem s.env).map fun r =>
      { s.set .rax r.1 with mem := r.2.1, env := r.2.2 }
  other _ _ s := (f (s.args 9) s.mem s.env).map fun r => { s.drop.set .rax r.1 with rip := s.top, mem := r.2.1, env := r.2.2 }

section Small

variable (f : CFun 9 ε) (sys : CFun 7 ε) (program : Word → Option (Instr Unit × Word))

theorem small_trampoline : HasTrampoline (smallMachine f sys program) (smallLabels.asmSyscallHook 0) := by
  intro a x ha hx
  exact (if_pos ha).trans hx

theorem small_asm : (smallMachine f sys program).Holds (asmSyscallHook smallLabels) smallLabels.asmSyscallHook := by
  intro k hk
  have hk' : k < 39 := hk
  have hn : (smallLabels.asmSyscallHook k).toNat = 0x2000 + k := by
    rw [smallLabels, BitVec.toNat_ofNat, Nat.mod_eq_of_lt (by omega)]
  have hnext : smallLabels.asmSyscallHook k + 1 = smallLabels.asmSyscallHook (k + 1) := addr_add (0x2000 + k) 1
  simp only [smallMachine, hn]
  rw [if_neg (by omega), if_pos (by omega), Nat.add_sub_cancel_left, List.getElem?_eq_getElem hk, hnext]
  rfl

theorem small_implements (K : ℕ) : Implements (smallMachine f sys program) smallLabels.syscallHook 0 K f := by
  intro s r hrip _ _ hr
  have hfetch : (smallMachine f sys program).fetch s.rip = some (.other (), 0) := by
    rw [hrip]
    rfl
  have hstep := Machine.step_of_fetch hfetch
  have hexec : (smallMachine f sys program).exec (.other ()) 0 s =
      some { s.drop.set .rax r.1 with rip := s.top, mem := r.2.1, env := r.2.2 } := by
    simp [Machine.exec, smallMachine, hr]
  refine ⟨_, .of_step (hstep.trans hexec) (.refl _), rfl, ?_, fun q hq => ?_, ?_, rfl, .refl _ K _⟩
  · simp
  · cases q <;> first | exact absurd hq (by decide) | simp
  · simp

theorem small_enter : (smallMachine f sys program).Holds enterSyscall smallLabels.enterSyscall := by
  intro k hk
  have hk' : k < 9 := hk
  have hn : (smallLabels.enterSyscall k).toNat = 0x3000 + k := by
    rw [smallLabels, BitVec.toNat_ofNat, Nat.mod_eq_of_lt (by omega)]
  have hnext : smallLabels.enterSyscall k + 1 = smallLabels.enterSyscall (k + 1) := addr_add (0x3000 + k) 1
  simp only [smallMachine, hn]
  rw [if_neg (by omega), if_neg (by omega), if_pos (by omega), Nat.add_sub_cancel_left, List.getElem?_eq_getElem hk, hnext]
  rfl

end Small

/-- A program that makes the system call `n` and whose hook function returns its number. -/
def smallState (n : Word) : State Unit where
  reg := Function.update (Function.update (fun _ => 0) .rsp 0x8000) .rax n
  cf := false
  zf := false
  rip := 0x5000
  mem := fun _ => 0
  env := ()

def smallHook : CFun 7 Unit := fun a m e => some (a ⟨0, Nat.zero_lt_succ 6⟩, m, e)

def smallBitmap : Bitmap := bitmapSet (fun _ => 0) 0x5000

def smallProgram (i : Instr Unit) : Word → Option (Instr Unit × Word) := fun a => if a = 0x5000 then some (i, 0x5002) else none

end Pthabt.Zpoline
