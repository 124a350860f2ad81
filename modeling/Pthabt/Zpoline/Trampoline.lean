import Pthabt.Lib.X86

/-! `setup_trampoline` (`zpoline.c`): the page at address 0 to which a rewritten system call jumps, with
the number of the call as the address. From there control slides down to the code at `NR_syscalls`,
which saves `%rax` and jumps to `asm_syscall_hook`. -/

namespace Pthabt.Zpoline

open Lib Memory X86

def nrSyscalls : ℕ := 512

/-- The bytes that the calls land on. -/
def slideByte (i : ℕ) : BitVec 8 :=
  if nrSyscalls - 0x6a - 2 < i then 0x90
  else
    match i % 3 with
    | 0 => 0xeb
    | 1 => 0x6a
    | _ => 0x90

/-- The bytes from `NR_syscalls` on: push %rax, movabs asm_syscall_hook, %rax and jmpq *%rax. -/
def codeByte (asmSyscallHook : Word) (i : ℕ) : BitVec 8 :=
  match i with
  | 0x0 => 0x50
  | 0x1 => 0x48
  | 0x2 => 0xb8
  | 0x3 | 0x4 | 0x5 | 0x6 | 0x7 | 0x8 | 0x9 | 0xa => ((asmSyscallHook >>> (8 * (i - 0x3))) &&& 0xff).setWidth 8
  | 0xb => 0xff
  | 0xc => 0xe0
  | _ => 0

/-- The page at address 0. -/
def setupTrampoline (asmSyscallHook : Word) : Mem := fun a =>
  if a.toNat < nrSyscalls then slideByte a.toNat else codeByte asmSyscallHook (a.toNat - nrSyscalls)

variable {ω ε : Type*} {M : Machine ω ε} {hook : Word}

/-- The machine has the page. -/
def HasTrampoline (M : Machine ω ε) (hook : Word) : Prop :=
  ∀ (a : Word) x, a.toNat < 0x1000 → decode (setupTrampoline hook) a = some x → M.fetch a = some x

theorem slideByte_nop {i : ℕ} (h : 405 ≤ i) : slideByte i = 0x90 := by
  rw [slideByte, nrSyscalls, if_pos (by omega)]

theorem slideByte_of_lt {i : ℕ} (h : i < 405) :
    slideByte i = if i % 3 = 0 then 0xeb else if i % 3 = 1 then 0x6a else 0x90 := by
  rw [slideByte, nrSyscalls, if_neg (by omega)]
  have h3 : i % 3 = 0 ∨ i % 3 = 1 ∨ i % 3 = 2 := by omega
  rcases h3 with h3 | h3 | h3 <;> simp [h3]

theorem setupTrampoline_slide {i : ℕ} (h : i < 512) : setupTrampoline hook (.ofNat 64 i) = slideByte i := by
  have hi : (BitVec.ofNat 64 i).toNat = i := by rw [BitVec.toNat_ofNat, Nat.mod_eq_of_lt (by omega)]
  rw [setupTrampoline, hi, nrSyscalls, if_pos h]

/-- The address of a byte of the page. -/
abbrev addr (i : ℕ) : Word := .ofNat 64 i

theorem addr_add (i j : ℕ) : addr i + addr j = addr (i + j) := (BitVec.ofNat_add i j).symm

theorem toNat_addr {i : ℕ} (h : i < 0x1000) : (addr i).toNat = i := by
  rw [BitVec.toNat_ofNat, Nat.mod_eq_of_lt (by omega)]

theorem fetch_nop (h : HasTrampoline M hook) {i : ℕ} (hi : i < 512) (hb : slideByte i = 0x90) :
    M.fetch (addr i) = some (.nop, addr (i + 1)) := by
  refine h _ _ (by rw [toNat_addr (by omega)]; omega) ?_
  rw [decode_nop (by rw [setupTrampoline_slide hi, hb])]
  exact congrArg (fun a => some (Instr.nop, a)) (addr_add i 1)

theorem fetch_jmp (h : HasTrampoline M hook) {i : ℕ} (hi : i < 404) (h3 : i % 3 = 0) :
    M.fetch (addr i) = some (.jmp (addr (i + 108)), addr (i + 2)) := by
  refine h _ _ (by rw [toNat_addr (by omega)]; omega) ?_
  have hnext : setupTrampoline hook (addr i + 1) = 0x6a := by
    rw [show addr i + 1 = addr (i + 1) from addr_add i 1, setupTrampoline_slide (by omega),
      slideByte_of_lt (by omega), if_neg (by omega), if_pos (by omega)]
  have hb : setupTrampoline hook (addr i) = 0xeb := by
    rw [setupTrampoline_slide (by omega), slideByte_of_lt (by omega), if_pos h3]
  rw [decode_jmp hb, hnext]
  have hto : addr i + 2 + (0x6a : BitVec 8).signExtend 64 = addr (i + 108) := by
    rw [show (0x6a : BitVec 8).signExtend 64 = addr 106 by decide, show addr i + 2 = addr (i + 2) from addr_add i 2,
      addr_add]
  rw [hto, show addr i + 2 = addr (i + 2) from addr_add i 2]

theorem fetch_push (h : HasTrampoline M hook) {i : ℕ} (hi : i < 404) (h3 : i % 3 = 1) :
    M.fetch (addr i) = some (.pushImm 0xffffffffffffff90, addr (i + 2)) := by
  refine h _ _ (by rw [toNat_addr (by omega)]; omega) ?_
  have hnext : setupTrampoline hook (addr i + 1) = 0x90 := by
    rw [show addr i + 1 = addr (i + 1) from addr_add i 1, setupTrampoline_slide (by omega),
      slideByte_of_lt (by omega), if_neg (by omega), if_neg (by omega)]
  have hb : setupTrampoline hook (addr i) = 0x6a := by
    rw [setupTrampoline_slide (by omega), slideByte_of_lt (by omega), if_neg (by omega), if_pos h3]
  rw [decode_pushImm hb, hnext, show addr i + 2 = addr (i + 2) from addr_add i 2,
    show (0x90 : BitVec 8).signExtend 64 = 0xffffffffffffff90 by decide]

/-- From the first byte of a group of three, and from the single-byte instructions at the end, nothing
but `rip` changes on the way down. -/
theorem slide_reaches (h : HasTrampoline M hook) {s : State ε} {i : ℕ} (hi : i ≤ 512) (h3 : i % 3 = 0 ∨ 405 ≤ i)
    (hrip : s.rip = addr i) : M.Reaches s { s with rip := addr 512 } := by
  induction hk : 512 - i using Nat.strong_induction_on generalizing i s with
  | _ k ih =>
    rcases Nat.lt_or_ge i 512 with hlt | hge
    · rcases Nat.lt_or_ge i 405 with hi' | hi'
      · have hstep : M.step s = some { s with rip := addr (i + 108) } := by
          rw [Machine.step_of_fetch (hrip ▸ fetch_jmp h (by omega) (by omega))]
          rfl
        exact .of_step hstep (ih (512 - (i + 108)) (by omega) (by omega) (by omega) rfl rfl)
      · have hstep : M.step s = some { s with rip := addr (i + 1) } := by
          rw [Machine.step_of_fetch (hrip ▸ fetch_nop h hlt (slideByte_nop hi'))]
          rfl
        exact .of_step hstep (ih (512 - (i + 1)) (by omega) (by omega) (by omega) rfl rfl)
    · obtain rfl : i = 512 := by omega
      rw [← hrip]
      exact .refl s

/-- Whether the byte `0x90` is pushed on the way down from `n`. -/
def Pushes (n : ℕ) : Prop := n % 3 = 1 ∧ n < 405

instance (n : ℕ) : Decidable (Pushes n) := inferInstanceAs (Decidable (_ ∧ _))

/-- The state in which control leaves the bytes that the calls land on. -/
def slid (n : ℕ) (s : State ε) : State ε :=
  { (if Pushes n then s.push 0xffffffffffffff90 else s) with rip := addr 512 }

/-- A call of address `n` slides down. -/
theorem call_slides (h : HasTrampoline M hook) {s : State ε} {n : ℕ} (hn : n ≤ 512) (hrip : s.rip = addr n) :
    M.Reaches s (slid n s) := by
  have h3 : (n % 3 = 0 ∨ 405 ≤ n) ∨ Pushes n ∨ n % 3 = 2 ∧ n < 405 := by
    unfold Pushes
    omega
  rcases h3 with h3 | h3 | ⟨h3, hlt⟩
  · have hno : ¬ Pushes n := by
      unfold Pushes
      omega
    rw [slid, if_neg hno]
    exact slide_reaches h hn h3 hrip
  · rw [slid, if_pos h3]
    obtain ⟨h3, hlt⟩ := h3
    have hstep : M.step s = some { s.push 0xffffffffffffff90 with rip := addr (n + 2) } := by
      rw [Machine.step_of_fetch (hrip ▸ fetch_push h (by omega) h3)]
      rfl
    exact .of_step hstep (slide_reaches h (by omega) (by omega) rfl)
  · have hno : ¬ Pushes n := by
      unfold Pushes
      omega
    have hb : slideByte n = 0x90 := by
      rw [slideByte_of_lt hlt, if_neg (by omega), if_neg (by omega)]
    have hstep : M.step s = some { s with rip := addr (n + 1) } := by
      rw [Machine.step_of_fetch (hrip ▸ fetch_nop h (by omega) hb)]
      rfl
    rw [slid, if_neg hno]
    exact .of_step hstep (slide_reaches h (by omega) (by omega) rfl)

theorem setupTrampoline_code {i : ℕ} (hi : 512 + i < 0x1000) :
    setupTrampoline hook (addr (512 + i)) = codeByte hook i := by
  rw [setupTrampoline, toNat_addr hi, nrSyscalls, if_neg (by omega), Nat.add_sub_cancel_left]

theorem byte_eq (v : Word) (i : ℕ) :
    ((v >>> (8 * i)) &&& 0xff).setWidth 8 = BitVec.ofNat 8 (v.toNat / 256 ^ i) := by
  apply BitVec.eq_of_toNat_eq
  have hmask : (0xff : Word).toNat = 2 ^ 8 - 1 := rfl
  rw [BitVec.toNat_setWidth, BitVec.toNat_and, BitVec.toNat_ushiftRight, hmask, Nat.and_two_pow_sub_one_eq_mod,
    Nat.shiftRight_eq_div_pow, Nat.pow_mul, Nat.mod_mod, BitVec.toNat_ofNat]

theorem codeByte_hook {i : ℕ} (h : i < 8) :
    codeByte hook (3 + i) = ((hook >>> (8 * i)) &&& 0xff).setWidth 8 := by
  rcases i with _ | _ | _ | _ | _ | _ | _ | _ | i
  all_goals first | rfl | omega

/-- The eight bytes of the address of `asm_syscall_hook`. -/
theorem load_hook : load (setupTrampoline hook) (addr 515) = hook := by
  refine load_eq_of_bytes fun i hi => ?_
  rw [show addr 515 + .ofNat 64 i = addr (512 + (3 + i)) by rw [← Nat.add_assoc]; exact addr_add 515 i,
    setupTrampoline_code (by omega), codeByte_hook hi, byte_eq]

/-- The code below saves `%rax` and jumps to `asm_syscall_hook`. -/
theorem code_reaches (h : HasTrampoline M hook) {s : State ε} (hrip : s.rip = addr 512) :
    M.Reaches s { (s.push (s.reg .rax)).set .rax hook with rip := hook } := by
  have hpush : M.fetch (addr 512) = some (.push .rax, addr 513) :=
    h _ _ (by rw [toNat_addr (by omega)]; omega) (decode_push (setupTrampoline_code (i := 0) (by omega)))
  have hmov : M.fetch (addr 513) = some (.movImm hook .rax, addr 523) := by
    refine h _ _ (by rw [toNat_addr (by omega)]; omega) ?_
    rw [decode_movImm (setupTrampoline_code (i := 1) (by omega)) (setupTrampoline_code (i := 2) (by omega)),
      show addr 513 + 2 = addr 515 from addr_add 513 2, show addr 513 + 10 = addr 523 from addr_add 513 10,
      load_hook]
  have hjmp : M.fetch (addr 523) = some (.jmpReg .rax, addr 525) :=
    h _ _ (by rw [toNat_addr (by omega)]; omega)
      (decode_jmpReg (setupTrampoline_code (i := 11) (by omega)) (setupTrampoline_code (i := 12) (by omega)))
  refine .of_step (t := { s.push (s.reg .rax) with rip := addr 513 }) ?_ ?_
  · rw [Machine.step_of_fetch (hrip ▸ hpush)]
    rfl
  refine .of_step (t := { (s.push (s.reg .rax)).set .rax hook with rip := addr 523 }) ?_ ?_
  · rw [Machine.step_of_fetch hmov]
    rfl
  refine .of_step (t := { (s.push (s.reg .rax)).set .rax hook with rip := hook }) ?_ (.refl _)
  rw [Machine.step_of_fetch hjmp]
  simp [Machine.exec]

/-- From the address `n` to `asm_syscall_hook`, with `%rax` on top of the stack. -/
theorem trampoline_reaches (h : HasTrampoline M hook) {s : State ε} {n : ℕ} (hn : n ≤ 512) (hrip : s.rip = addr n) :
    ∃ t, M.Reaches s t ∧ t.rip = hook ∧ t.top = s.reg .rax ∧
      t.reg .rsp = s.reg .rsp - (if Pushes n then 16 else 8) ∧
      (∀ q, q ≠ .rax → q ≠ .rsp → t.reg q = s.reg q) ∧ t.env = s.env ∧ EqAbove (s.reg .rsp) 16 s.mem t.mem := by
  refine ⟨_, (call_slides h hn hrip).trans (code_reaches h rfl), rfl, ?_, ?_, ?_, ?_, ?_⟩
  · by_cases hp : Pushes n <;> simp [slid, hp, State.top]
  · by_cases hp : Pushes n <;> simp [slid, hp, BitVec.sub_sub]
  · intro q hax hsp
    by_cases hp : Pushes n <;> simp [slid, hp, hax, hsp]
  · by_cases hp : Pushes n <;> simp [slid, hp]
  · by_cases hp : Pushes n
    · simp [slid, hp]
      exact (eqAbove_store (by bv_omega) (by bv_omega) _).store (by bv_omega) (by bv_omega) _
    · simp [slid, hp]
      exact eqAbove_store (by bv_omega) (by bv_omega) _

end Pthabt.Zpoline
