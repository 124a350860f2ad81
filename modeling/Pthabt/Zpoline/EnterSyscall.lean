import Pthabt.Zpoline.Simulation

/-! The system calls that the hook does not take over itself: `enter_syscall`, which is what `hook_fn` is
until a hook function is loaded, `rt_sigreturn`, and the new threads of `clone`. -/

namespace Pthabt.Zpoline

open Lib Memory X86

variable {ω ε : Type*} {M : Machine ω ε} {L : Labels} {K : ℕ} {s : State ε}

/-- The kernel computes `sys` of the number and the arguments in the registers. -/
def KernelComputes (M : Machine ω ε) (sys : CFun 7 ε) : Prop :=
  ∀ s r, sys (callArgs s) s.mem s.env = some r → ∃ t, M.kernel s = some t ∧ AfterCall s s.rip 0 r t

/-- The block that moves the arguments of a function into those of a system call. -/
theorem move_block (s : State ε) :
    ∃ t, Machine.runBlock ([.mov .rdi .rax, .mov .rsi .rdi, .mov .rdx .rsi, .mov .rcx .rdx, .mov .r8 .r10, .mov .r9 .r8,
        .movMem 8 .rsp .r9] : List (Instr ω)) s = some t ∧ callArgs t = s.args 7 ∧
      (∀ q : Reg, q.calleeSaved → t.reg q = s.reg q) ∧ t.reg .rsp = s.reg .rsp ∧ t.env = s.env ∧ t.mem = s.mem := by
  simp only [Machine.runBlock, Instr.straight, Option.bind_some]
  refine ⟨_, rfl, ?_, fun q hq => ?_, ?_, rfl, rfl⟩
  · funext i
    fin_cases i
    all_goals simp [callArgs, State.args, State.arg]
  · cases q <;> first | exact absurd hq (by decide) | simp
  · simp

/-- `enter_syscall` makes the system call of its arguments. -/
theorem enterSyscall_implements (hM : M.Holds enterSyscall L.enterSyscall) {sys : CFun 7 ε}
    (hsys : KernelComputes M sys) (hK : 8 ≤ K) : Implements M (L.enterSyscall 0) 0 K sys := by
  intro s r hrip _ hframe hr
  obtain ⟨u, hu, hargs, hsave, hsp, henv, hmem⟩ := move_block (ω := ω) s
  have hmove : M.Reaches s { u with rip := L.enterSyscall 7 } := (hM.slice 0 7).reaches hrip hu
  have hfetch : M.fetch (L.enterSyscall 7) = some (.syscall, L.enterSyscall 8) := hM 7 (by simp [enterSyscall])
  have hret : M.fetch (L.enterSyscall 8) = some (.ret, L.enterSyscall 9) := hM 8 (by simp [enterSyscall])
  -- the kernel sees the arguments of the function
  have hrsys : sys (callArgs { u with rip := L.enterSyscall 8 }) u.mem u.env = some r := by
    have hargs' : callArgs { u with rip := L.enterSyscall 8 } = s.args 7 := hargs
    rw [hargs', hmem, henv, hr]
  obtain ⟨v, hv, hafter⟩ := hsys { u with rip := L.enterSyscall 8 } r hrsys
  have hcall : M.step { u with rip := L.enterSyscall 7 } = some v :=
    (Machine.step_of_fetch (s := { u with rip := L.enterSyscall 7 }) hfetch).trans hv
  have hvsp : v.reg .rsp = s.reg .rsp := (hafter.regs .rsp rfl).trans hsp
  have hvmem : v.mem = r.2.1 := by
    funext x
    exact hafter.mem x fun hx => by
      obtain ⟨h0, hle⟩ := hx
      omega
  have hback := Machine.step_of_fetch (s := v) (by rw [hafter.rip]; exact hret)
  -- and it leaves the return address alone
  have htop : v.top = s.top := by
    have hkeeps := hframe.keeps hr
    rw [State.top, hvsp, hvmem, ← hkeeps]
    exact load_splice (by bv_omega) (by bv_omega)
  refine ⟨_, hmove.trans (.of_step hcall (.of_step hback (.refl _))), htop, ?_, fun q hq => ?_, ?_, hafter.env, ?_⟩
  · simp [hvsp]
  · have hq' : q ≠ .rsp ∧ Reg.takenOver q = false := by
      cases q <;> first | exact absurd hq (by decide) | decide
    rw [State.drop_reg, Function.update_of_ne hq'.1, hafter.regs q hq'.2]
    exact hsave q hq
  · simpa using hafter.rax
  · rw [State.drop_mem, hvmem]
    exact .refl _ K _

theorem small_kernel (f : CFun 9 Unit) (program : Word → Option (Instr Unit × Word)) :
    KernelComputes (smallMachine f smallHook program) smallHook := by
  intro s r hr
  obtain rfl := Option.some.inj hr
  refine ⟨_, rfl, rfl, ?_, fun q hq => ?_, rfl, .refl _ 0 _⟩
  · simp [callArgs]
  · cases q <;> first | exact absurd hq (by decide) | simp

theorem enterSyscall_implements_small :
    Implements (smallMachine (syscallHookFun smallBitmap smallHook) smallHook fun _ => none) 0x3000 0 8 smallHook :=
  enterSyscall_implements (L := smallLabels) (small_enter _ _ _) (small_kernel _ _) (by decide)

/-- `rt_sigreturn` is made by the `syscall` of `enter_syscall` with the registers and the stack of the
program. -/
theorem sigreturn_reaches (hT : HasTrampoline M (L.asmSyscallHook 0))
    (hM : M.Holds (asmSyscallHook L) L.asmSyscallHook) {next : Word}
    (hfetch : M.fetch s.rip = some (.callReg .rax, next)) (h15 : s.reg .rax = nrRtSigreturn) :
    ∃ t, M.Reaches s t ∧ t.rip = L.syscallAddr ∧ t.reg = s.reg ∧ t.env = s.env ∧ EqAbove (s.reg .rsp) 40 s.mem t.mem := by
  obtain ⟨u, hu, hrip, hsp, hreg, henv, hmem, -⟩ := call_lands hT hM hfetch (by rw [h15]; decide)
  obtain ⟨t, ht, htrip, htsp, htreg, htenv, htmem⟩ := asm_sigreturn hM hrip ((hreg _ (by simp)).trans h15)
  refine ⟨t, hu.trans ht, htrip, ?_, htenv.trans henv, by rwa [htmem]⟩
  funext q
  by_cases hq : q = .rsp
  · have hno : ¬ Discards (s.reg .rax).toNat := by
      rw [h15]
      decide
    rw [hq, htsp, hsp, if_neg hno, BitVec.sub_add_cancel]
  · rw [htreg q hq, hreg q hq]

theorem sigreturn_reaches_small : ∃ t, (smallMachine (syscallHookFun smallBitmap smallHook) smallHook
    (smallProgram (.callReg .rax))).Reaches (smallState 15) t ∧ t.rip = smallLabels.syscallAddr ∧
      t.reg = (smallState 15).reg ∧ t.env = () ∧ EqAbove 0x8000 40 (fun _ => 0) t.mem :=
  sigreturn_reaches (s := smallState 15) (small_trampoline _ _ _) (small_asm _ _ _) rfl rfl

/-- A thread that `clone` starts on the stack that the hook gave it goes on behind the system call of the
program, on the stack that the program gave it. -/
theorem clone_child (hM : M.Holds enterSyscall L.enterSyscall) {sys : CFun 7 ε} {next : Word} {m : Mem} {e : ε}
    (hclone : s.reg .rax = nrClone) (hvm : s.reg .rdi &&& cloneVm ≠ 0) :
    ∃ a m', interposed sys s next m e = sys a m' e ∧ a 0 = nrClone ∧ a 1 = s.reg .rdi ∧
      ∀ c : State ε, c.rip = L.enterSyscall 8 → c.reg .rsp = a 2 → c.mem = m' →
        ∃ t, M.Reaches c t ∧ t.rip = next ∧ t.reg .rsp = s.reg .rsi ∧ (∀ q, q ≠ .rsp → t.reg q = c.reg q) ∧
          t.mem = m' ∧ t.env = c.env := by
  refine ⟨callArgs (s.set .rsi (s.reg .rsi - 8)), store m (s.reg .rsi - 8) next, ?_, ?_, ?_, fun c hrip hsp hmem => ?_⟩
  · rw [interposed, if_neg (by rw [hclone]; decide), if_pos ⟨hclone, hvm⟩]
  · simp [callArgs, hclone]
  · simp [callArgs]
  · have hret : M.fetch c.rip = some (.ret, L.enterSyscall 9) := by
      rw [hrip]
      exact hM 8 (by simp [enterSyscall])
    have hsp' : c.reg .rsp = s.reg .rsi - 8 := by simp [hsp, callArgs]
    refine ⟨_, .of_step (Machine.step_of_fetch hret) (.refl _), ?_, ?_, fun q hq => ?_, hmem, rfl⟩
    · rw [State.top, hsp', hmem, load_store]
    · simp [hsp']
    · simp [hq]

theorem clone_child_small :
    ∃ a m', interposed smallHook ((smallState 56).set .rdi cloneVm) 0x5002 (fun _ => 0) () = smallHook a m' () ∧
      a 0 = nrClone ∧ a 1 = cloneVm ∧ ∀ c : State Unit, c.rip = 0x3008 → c.reg .rsp = a 2 → c.mem = m' →
        ∃ t, (smallMachine (syscallHookFun smallBitmap smallHook) smallHook fun _ => none).Reaches c t ∧ t.rip = 0x5002 ∧
          t.reg .rsp = 0 ∧ (∀ q, q ≠ .rsp → t.reg q = c.reg q) ∧ t.mem = m' ∧ t.env = c.env :=
  clone_child (s := (smallState 56).set .rdi cloneVm) (L := smallLabels) (small_enter _ _ _) rfl (by decide)

end Pthabt.Zpoline
