import Pthabt.Zpoline.SyscallHook

/-! The rewritten program against the program: what the program does when its system calls are made by the
hook function, and that the rewritten program does nothing else. -/

namespace Pthabt.Zpoline

open Lib Memory X86

variable {ω ε : Type*}

/-- The number and the six arguments of a system call. -/
def callArgs (s : State ε) : Fin 7 → Word :=
  ![s.reg .rax, s.reg .rdi, s.reg .rsi, s.reg .rdx, s.reg .r10, s.reg .r8, s.reg .r9]

/-- What a system call of the program computes, when it is made before the instruction at `next`. A new
thread finds the address of that instruction on its stack, and there is no `clone3`. -/
def interposed (hookFn : CFun 7 ε) (s : State ε) (next : Word) (m : Mem) (e : ε) : Option (Word × Mem × ε) :=
  if s.reg .rax = nrClone3 then some (-enosys, m, e)
  else if s.reg .rax = nrClone ∧ s.reg .rdi &&& cloneVm ≠ 0 then
    hookFn (callArgs (s.set .rsi (s.reg .rsi - 8))) (store m (s.reg .rsi - 8) next) e
  else hookFn (callArgs s) m e

/-- The registers that a system call does not keep. -/
def Reg.takenOver : Reg → Bool
  | .rax | .rcx | .r11 => true
  | _ => false

/-- The program after a system call. The flags and the registers that the call takes over may be
anything, and so may be the `K` bytes below the stack pointer. -/
structure AfterCall (s : State ε) (next : Word) (K : ℕ) (r : Word × Mem × ε) (t : State ε) : Prop where
  rip : t.rip = next
  rax : t.reg .rax = r.1
  regs : ∀ q, Reg.takenOver q = false → t.reg q = s.reg q
  env : t.env = r.2.2
  mem : EqAbove (s.reg .rsp) K r.2.1 t.mem

/-- The steps of the program `S`. -/
inductive Step (S : Machine ω ε) (hookFn : CFun 7 ε) (K : ℕ) (s t : State ε) : Prop where
  | instr {i next} (hfetch : S.fetch s.rip = some (i, next)) (hi : i ≠ .syscall) (hexec : S.exec i next s = some t)
  | call {next r} (hfetch : S.fetch s.rip = some (.syscall, next)) (hr : interposed hookFn s next s.mem s.env = some r)
      (hafter : AfterCall s next K r t)

/-- The program `T` is `S` with its system calls replaced and recorded. -/
structure Replaces (S T : Machine ω ε) (bm : Bitmap) : Prop where
  call : ∀ a next, S.fetch a = some (.syscall, next) →
    next = a + 2 ∧ T.fetch a = some (.callReg .rax, next) ∧ isReplacedInstructionAddr bm a = some true
  rest : ∀ a i next, S.fetch a = some (i, next) → i ≠ .syscall → T.fetch a = some (i, next)
  other : T.other = S.other

/-- The system calls that the trampoline and `asm_syscall_hook` serve, if they leave the `K` bytes below
the stack pointer alone. -/
structure Served (hookFn : CFun 7 ε) (s : State ε) (next : Word) (K : ℕ) : Prop where
  number : (s.reg .rax).toNat < nrSyscalls
  sigreturn : s.reg .rax ≠ nrRtSigreturn
  discards : ¬ Discards (s.reg .rax).toNat
  frame : ∀ m', interposed hookFn s next (splice (s.reg .rsp) K m' s.mem) s.env =
    (interposed hookFn s next s.mem s.env).map fun r => (r.1, splice (s.reg .rsp) K m' r.2.1, r.2.2)

variable {S T : Machine ω ε} {L : Labels} {bm : Bitmap} {hookFn : CFun 7 ε} {k K : ℕ} {s t : State ε}

theorem syscallHook_eq {next : Word} (h : isReplacedInstructionAddr bm (next - 2) = some true) (m : Mem) (e : ε) :
    syscallHookFun bm hookFn (hookArgs s next) m e = interposed hookFn s next m e := by
  have hchild : callArgs (s.set .rsi (s.reg .rsi - 8)) =
      ![s.reg .rax, s.reg .rdi, s.reg .rsi - 8, s.reg .rdx, s.reg .r10, s.reg .r8, s.reg .r9] := by
    simp [callArgs]
  change syscallHook bm hookFn (s.reg .rdi) (s.reg .rsi) (s.reg .rdx) (s.reg .rcx) (s.reg .r8) (s.reg .r9) (s.reg .r10)
    (s.reg .rax) next m e = _
  rw [interposed, hchild, syscallHook, h]
  rfl

/-- The code that comes with the rewritten program. -/
structure HasHook (T : Machine ω ε) (L : Labels) (bm : Bitmap) (hookFn : CFun 7 ε) (K : ℕ) : Prop where
  trampoline : HasTrampoline T (L.asmSyscallHook 0)
  asm : T.Holds (asmSyscallHook L) L.asmSyscallHook
  -- the compiled function leaves its arguments on the stack as they are
  compiled : Implements T L.syscallHook 0 K (syscallHookFun bm hookFn)
  depth : K + 256 ≤ 2 ^ 64

/-- The runs of the program. -/
def Runs (S : Machine ω ε) (hookFn : CFun 7 ε) (K : ℕ) : State ε → State ε → Prop :=
  Relation.ReflTransGen (Step S hookFn K)

/-- The program goes no further: it leaves its code, or its system call does not return. -/
def Stops (S : Machine ω ε) (hookFn : CFun 7 ε) (s : State ε) : Prop :=
  ∀ i next, S.fetch s.rip = some (i, next) →
    (i ≠ .syscall ∧ S.exec i next s = none) ∨ i = .syscall ∧ interposed hookFn s next s.mem s.env = none

/-- The instructions mean the same. -/
theorem exec_eq (hother : T.other = S.other) {i : Instr ω} (hi : i ≠ .syscall) (next : Word) (s : State ε) :
    T.exec i next s = S.exec i next s := by
  cases i <;> first | exact absurd rfl hi | simp only [Machine.exec, hother]

end Pthabt.Zpoline
