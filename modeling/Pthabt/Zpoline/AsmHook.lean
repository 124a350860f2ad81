import Mathlib.Data.Fin.VecNotation
import Mathlib.Tactic.FinCases
import Pthabt.Lib.Calls

/-! `asm_syscall_hook` and `enter_syscall` (`zpoline.c`). The first is where the trampoline code lands: it
saves the registers, calls `syscall_hook` and returns to the program. The second triggers a system call
of the kernel. -/

namespace Pthabt.Zpoline

open Lib Memory X86

/-- The addresses of the instructions of `asm_syscall_hook` and of `enter_syscall`, and of
`syscall_hook`. -/
structure Labels where
  asmSyscallHook : ℕ → Word
  enterSyscall : ℕ → Word
  syscallHook : Word

namespace Labels

variable (L : Labels)

def skipPop : Word := L.asmSyscallHook 10

def doRtSigreturn : Word := L.asmSyscallHook 37

def syscallAddr : Word := L.enterSyscall 7

end Labels

variable {ω ε : Type*}

def asmSyscallHook (L : Labels) : List (Instr ω) :=
  [.pop .rax,
    -- discard the pushed 0x90
    .push .rdi, .push .rax, .movImm 0xaaaaaaaaaaaaaaab .rdi, .imul .rdi .rax, .cmp .rdi .rax, .pop .rax, .pop .rdi,
    .jb L.skipPop, .addImm 8 .rsp,
    -- skip_pop
    .cmpImm 15 .rax, .je L.doRtSigreturn, .push .rbp, .mov .rsp .rbp,
    .andImm (-16) .rsp,
    .push .r11, .push .r9, .push .r8, .push .rdi, .push .rsi, .push .rdx, .push .rcx,
    .pushMem 8 .rbp, .push .rax, .push .r10,
    .call L.syscallHook,
    .pop .r10, .addImm 16 .rsp,
    .pop .rcx, .pop .rdx, .pop .rsi, .pop .rdi, .pop .r8, .pop .r9, .pop .r11,
    .leave, .ret,
    -- do_rt_sigreturn
    .addImm 8 .rsp, .jmp L.syscallAddr]

def enterSyscall : List (Instr ω) :=
  [.mov .rdi .rax, .mov .rsi .rdi, .mov .rdx .rsi, .mov .rcx .rdx, .mov .r8 .r10, .mov .r9 .r8, .movMem 8 .rsp .r9,
    -- syscall_addr
    .syscall, .ret]

variable {M : Machine ω ε} {L : Labels} {s : State ε}

theorem mod_of_eq_add_mul {x c d w : ℕ} (h : x = c + w * d) (hlt : c < w) : x % w = c := by
  rw [h, Nat.add_mul_mod_self_left, Nat.mod_eq_of_lt hlt]

/-- The number is multiplied by the inverse of 3, so the comparison tells its rest. -/
theorem below_inverse (n : Word) :
    (n * 0xaaaaaaaaaaaaaaab).toNat < (0xaaaaaaaaaaaaaaab : Word).toNat ↔ n.toNat % 3 ≠ 1 := by
  have hn := n.isLt
  generalize hk : n.toNat / 3 = k
  rw [BitVec.toNat_mul, show (0xaaaaaaaaaaaaaaab : Word).toNat = 12297829382473034411 from rfl]
  have hr : n.toNat = 3 * k ∨ n.toNat = 3 * k + 1 ∨ n.toNat = 3 * k + 2 := by omega
  rcases hr with hr | hr | hr
  · rw [mod_of_eq_add_mul (c := k) (d := 2 * k) (by omega) (by omega)]
    omega
  · rw [mod_of_eq_add_mul (c := k + 12297829382473034411) (d := 2 * k) (by omega) (by omega)]
    omega
  · rw [mod_of_eq_add_mul (c := k + 6148914691236517206) (d := 2 * k + 1) (by omega) (by omega)]
    omega

/-- The block that restores `%rax` and compares. -/
theorem entry_block (c : Word) (s : State ε) :
    ∃ t, Machine.runBlock ([.pop .rax, .push .rdi, .push .rax, .movImm c .rdi, .imul .rdi .rax, .cmp .rdi .rax,
        .pop .rax, .pop .rdi] : List (Instr ω)) s = some t ∧ t.reg .rax = s.top ∧
      t.reg .rsp = s.reg .rsp + 8 ∧ (∀ q, q ≠ .rax → q ≠ .rsp → t.reg q = s.reg q) ∧ t.env = s.env ∧
      EqAbove (s.reg .rsp + 8) 16 s.mem t.mem ∧ (t.cf = true ↔ (s.top * c).toNat < c.toNat) := by
  simp only [Machine.runBlock, Instr.straight, Option.bind_some]
  refine ⟨_, rfl, ?_, ?_, ?_, rfl, ?_, ?_⟩
  · simp [State.top]
  · simp
  · intro q hax hsp
    by_cases hdi : q = .rdi
    · subst hdi
      simp [State.top]
      rw [load_store_of_apart (by bv_omega) (by bv_omega), load_store]
    · simp_all [State.top]
  · simp [State.top]
    exact (eqAbove_store (by bv_omega) (by bv_omega) _).store (by bv_omega) (by bv_omega) _
  · simp [State.top]

/-- Up to `skip_pop` the saved `%rax` is restored and, when it is `n * 3 + 1`, one more word dropped. -/
theorem asm_entry (hM : M.Holds (asmSyscallHook L) L.asmSyscallHook) (hrip : s.rip = L.asmSyscallHook 0) :
    ∃ t, M.Reaches s t ∧ t.rip = L.skipPop ∧ t.reg .rax = s.top ∧
      t.reg .rsp = s.reg .rsp + (if s.top.toNat % 3 = 1 then 16 else 8) ∧
      (∀ q, q ≠ .rax → q ≠ .rsp → t.reg q = s.reg q) ∧ t.env = s.env ∧
      EqAbove (s.reg .rsp + 8) 16 s.mem t.mem := by
  obtain ⟨u, hu, hax, hsp, hreg, henv, hmem, hcf⟩ := entry_block (ω := ω) 0xaaaaaaaaaaaaaaab s
  rw [below_inverse] at hcf
  have hblock : M.Reaches s { u with rip := L.asmSyscallHook 8 } := (hM.slice 0 8).reaches hrip hu
  have hjb : M.fetch (L.asmSyscallHook 8) = some (.jb L.skipPop, L.asmSyscallHook 9) :=
    hM 8 (by simp [asmSyscallHook])
  have hstep := Machine.step_of_fetch (s := { u with rip := L.asmSyscallHook 8 }) hjb
  by_cases h3 : s.top.toNat % 3 = 1
  · have hcf' : u.cf = false := by simp_all
    rw [if_pos h3]
    have hadd : M.fetch (L.asmSyscallHook 9) = some (.addImm 8 .rsp, L.asmSyscallHook 10) :=
      hM 9 (by simp [asmSyscallHook])
    have hstep' := Machine.step_of_fetch (s := { u with rip := L.asmSyscallHook 9 }) hadd
    rw [Machine.exec_of_straight rfl] at hstep'
    refine ⟨_, hblock.trans (.of_step ?_ (.of_step hstep' (.refl _))), rfl, ?_, ?_, ?_, henv, hmem⟩
    · rw [hstep]
      simp [Machine.exec, hcf']
    · simpa using hax
    · simp [hsp, BitVec.add_assoc]
    · intro q hqa hqs
      simpa [hqs] using hreg q hqa hqs
  · have hcf' : u.cf = true := hcf.mpr h3
    refine ⟨{ u with rip := L.skipPop }, hblock.trans (.of_step ?_ (.refl _)), rfl, hax, ?_, hreg, henv, hmem⟩
    · rw [hstep]
      simp [Machine.exec, hcf']
    · rw [if_neg h3]
      exact hsp

/-- The stack pointer is aligned. -/
theorem aligned_and (v : Word) :
    (v &&& -16).toNat % 16 = 0 ∧ (v - (v &&& -16)).toNat ≤ 15 := by
  have hmask : (-16 : Word) = BitVec.allOnes 64 <<< 4 := by decide
  have hv := v.isLt
  have hval : (v &&& -16).toNat = v.toNat / 16 * 16 := by
    rw [hmask, ← BitVec.shiftLeft_ushiftRight, BitVec.toNat_shiftLeft, BitVec.toNat_ushiftRight,
      Nat.shiftLeft_eq, Nat.shiftRight_eq_div_pow]
    omega
  refine ⟨by omega, ?_⟩
  rw [BitVec.toNat_sub, hval]
  omega

/-- What `asm_syscall_hook` saves for the call, from the aligned stack pointer down. -/
def saved (s : State ε) : List Word :=
  [s.reg .r11, s.reg .r9, s.reg .r8, s.reg .rdi, s.reg .rsi, s.reg .rdx, s.reg .rcx, s.top, s.reg .rax, s.reg .r10]

section Frame

variable {m : Mem} {q b v : Word} {l : List Word}

/-- The stores of the frame are below the return address. -/
theorem eqAbove_frame (hb : (q - 8 - b).toNat ≤ 15) (hl : l.length ≤ 11) :
    EqAbove q 111 m (storeDown (store m (q - 8) v) b l) := by
  have hdown := eqAbove_storeDown (m := store m (q - 8) v) (a := b) (l := l) (by omega)
  have hstore := eqAbove_store (m := m) (p := q) (a := q - 8) (K := 111) (by bv_omega) (by bv_omega) v
  exact hstore.trans (hdown.mono (by bv_omega) (by omega))

/-- The saved `%rbp` is above the words of the frame. -/
theorem load_frame (hb : (q - 8 - b).toNat ≤ 15) (hl : l.length ≤ 11) :
    load (storeDown (store m (q - 8) v) b l) (q - 8) = v := by
  have hdown := eqAbove_storeDown (m := store m (q - 8) v) (a := b) (l := l) (by omega)
  rw [hdown.load_eq (by omega), load_store]

end Frame

/-- The block that saves the registers. -/
theorem save_block {c : Word} (s : State ε) (hc : (s.reg .rsp - 8 - (s.reg .rsp - 8 &&& c)).toNat ≤ 15) :
    ∃ t, Machine.runBlock ([.push .rbp, .mov .rsp .rbp, .andImm c .rsp, .push .r11, .push .r9, .push .r8, .push .rdi,
        .push .rsi, .push .rdx, .push .rcx, .pushMem 8 .rbp, .push .rax, .push .r10] : List (Instr ω)) s = some t ∧
      t.reg .rsp = (s.reg .rsp - 8 &&& c) - 80 ∧ t.reg .rbp = s.reg .rsp - 8 ∧
      (∀ q, q ≠ .rbp → q ≠ .rsp → t.reg q = s.reg q) ∧ t.env = s.env ∧
      t.mem = storeDown (store s.mem (s.reg .rsp - 8) (s.reg .rbp)) (s.reg .rsp - 8 &&& c) (saved s) := by
  have hret : load (storeDown (store s.mem (s.reg .rsp - 8) (s.reg .rbp)) (s.reg .rsp - 8 &&& c)
      [s.reg .r11, s.reg .r9, s.reg .r8, s.reg .rdi, s.reg .rsi, s.reg .rdx, s.reg .rcx]) (s.reg .rsp) = s.top :=
    (eqAbove_frame hc (by simp)).load_eq (by bv_omega)
  simp only [Machine.runBlock, Instr.straight, Option.bind_some]
  refine ⟨_, rfl, ?_, ?_, ?_, rfl, ?_⟩
  · simp
    bv_omega
  · simp
  · intro q hbp hsp
    simp_all
  · simp only [storeDown, BitVec.ofNat_eq_ofNat] at hret
    simp [saved, storeDown, hret]

theorem calleeSaved_notMem {q : Reg} (hq : q.calleeSaved) :
    q ∉ [Reg.rcx, .rdx, .rsi, .rdi, .r8, .r9, .r11] ∧ q ≠ .rsp ∧ q ≠ .r10 := by
  cases q <;> first | exact absurd hq (by decide) | decide

/-- The block that restores them. -/
theorem restore_block (s : State ε) :
    ∃ t, Machine.runBlock ([.pop .r10, .addImm 16 .rsp, .pop .rcx, .pop .rdx, .pop .rsi, .pop .rdi, .pop .r8, .pop .r9,
        .pop .r11, .leave] : List (Instr ω)) s = some t ∧ t.reg .r10 = s.top ∧
      (∀ i (hi : i < 7), t.reg ([Reg.rcx, .rdx, .rsi, .rdi, .r8, .r9, .r11].get ⟨i, hi⟩) =
        load s.mem (s.reg .rsp + .ofNat 64 (8 * (i + 3)))) ∧
      t.reg .rbp = load s.mem (s.reg .rbp) ∧ t.reg .rsp = s.reg .rbp + 8 ∧ t.reg .rax = s.reg .rax ∧
      (∀ q : Reg, q.calleeSaved → q ≠ .rbp → t.reg q = s.reg q) ∧ t.env = s.env ∧ t.mem = s.mem := by
  obtain ⟨w, hw, hw10, hwsp, hwreg, hwenv, hwmem⟩ : ∃ w,
      Machine.runBlock ([.pop .r10, .addImm 16 .rsp] : List (Instr ω)) s = some w ∧ w.reg .r10 = s.top ∧
      w.reg .rsp = s.reg .rsp + 24 ∧ (∀ q, q ≠ .r10 → q ≠ .rsp → w.reg q = s.reg q) ∧ w.env = s.env ∧ w.mem = s.mem := by
    refine ⟨_, rfl, ?_, ?_, ?_, rfl, rfl⟩
    · simp
    · simp [BitVec.add_assoc]
    · intro q hq10 hqs
      simp [hq10, hqs]
  obtain ⟨u, hu, hureg, husp, hurest, huenv, humem⟩ := Machine.runBlock_pops (ω := ω) [.rcx, .rdx, .rsi, .rdi, .r8, .r9, .r11]
    (by decide) (by decide) w
  refine ⟨((u.set .rsp (u.reg .rbp)).drop).set .rbp (load u.mem (u.reg .rbp)), ?_, ?_, ?_, ?_, ?_, ?_, ?_, ?_, ?_⟩
  · change Machine.runBlock ([.pop .r10, .addImm 16 .rsp] ++
      (([.rcx, .rdx, .rsi, .rdi, .r8, .r9, .r11] : List Reg).map Instr.pop ++ [.leave])) s = _
    rw [Machine.runBlock_append, hw, Option.bind_some, Machine.runBlock_append, hu]
    rfl
  · simp [hurest, hw10]
  · intro i hi
    have hin : [Reg.rcx, .rdx, .rsi, .rdi, .r8, .r9, .r11].get ⟨i, hi⟩ ∈ [Reg.rcx, .rdx, .rsi, .rdi, .r8, .r9, .r11] :=
      List.getElem_mem hi
    rw [State.set_reg, Function.update_of_ne (ne_of_mem_of_not_mem hin (by decide)), State.drop_reg,
      Function.update_of_ne (ne_of_mem_of_not_mem hin (by decide)), State.set_reg,
      Function.update_of_ne (ne_of_mem_of_not_mem hin (by decide))]
    refine (hureg i hi).trans ?_
    rw [hwsp, hwmem]
    congr 1
    bv_omega
  · simp [hurest, hwreg, humem, hwmem]
  · simp [hurest, hwreg]
  · simp [hurest, hwreg]
  · intro q hq hbp
    obtain ⟨hin, hsp, h10⟩ := calleeSaved_notMem hq
    simp [hbp, hsp, hurest q hin hsp, hwreg q h10 hsp]
  · exact huenv.trans hwenv
  · exact humem.trans hwmem

/-- The arguments of `syscall_hook`. -/
def hookArgs (s : State ε) (retptr : Word) : Fin 9 → Word :=
  ![s.reg .rdi, s.reg .rsi, s.reg .rdx, s.reg .rcx, s.reg .r8, s.reg .r9, s.reg .r10, s.reg .rax, retptr]

/-- The state `t` in which control is back at `ret` with the stack pointer `p` and the registers of `s`.
`%r10` is what `syscall_hook` left of its argument. -/
structure Resumes (s : State ε) (ret p : Word) (k K : ℕ) (r : Word × Mem × ε) (t : State ε) : Prop where
  rip : t.rip = ret
  rsp : t.reg .rsp = p
  rax : t.reg .rax = r.1
  regs : ∀ q, q ≠ .rax → q ≠ .rsp → (q = .r10 → k = 0) → t.reg q = s.reg q
  env : t.env = r.2.2
  mem : EqAbove p K r.2.1 t.mem

variable {f : CFun 9 ε} {k K : ℕ} {r : Word × Mem × ε}

/-- `cmpq $15, %rax` and `je do_rt_sigreturn`. -/
theorem asm_compare (hM : M.Holds (asmSyscallHook L) L.asmSyscallHook) (hrip : s.rip = L.skipPop) :
    ∃ t, M.Reaches s t ∧ t.rip = (if s.reg .rax = 15 then L.doRtSigreturn else L.asmSyscallHook 12) ∧
      t.reg = s.reg ∧ t.env = s.env ∧ t.mem = s.mem := by
  have hcmp : M.fetch s.rip = some (.cmpImm 15 .rax, L.asmSyscallHook 11) := by
    rw [hrip]
    exact hM 10 (by simp [asmSyscallHook])
  have hje : M.fetch (L.asmSyscallHook 11) = some (.je L.doRtSigreturn, L.asmSyscallHook 12) :=
    hM 11 (by simp [asmSyscallHook])
  have hstep := Machine.step_of_fetch hcmp
  rw [Machine.exec_of_straight rfl] at hstep
  have hstep' := Machine.step_of_fetch (s := { s.compare (s.reg .rax) 15 with rip := L.asmSyscallHook 11 }) hje
  refine ⟨_, .of_step hstep (.of_step hstep' (.refl _)), ?_, rfl, rfl, rfl⟩
  simp

/-- Up to the call of `syscall_hook`. -/
theorem asm_save (hM : M.Holds (asmSyscallHook L) L.asmSyscallHook) (hrip : s.rip = L.skipPop)
    (hne : s.reg .rax ≠ 15) {b : Word} (hb : b = s.reg .rsp - 8 &&& -16) :
    ∃ t, M.Reaches s t ∧ t.rip = L.syscallHook ∧ t.reg .rsp = b - 88 ∧ t.reg .rbp = s.reg .rsp - 8 ∧
      (∀ q, q ≠ .rbp → q ≠ .rsp → t.reg q = s.reg q) ∧ t.env = s.env ∧
      t.mem = storeDown (store s.mem (s.reg .rsp - 8) (s.reg .rbp)) b (saved s ++ [L.asmSyscallHook 26]) := by
  obtain ⟨s', hs', hrip', hreg', henv', hmem'⟩ := asm_compare hM hrip
  rw [if_neg hne] at hrip'
  obtain ⟨u, hu, husp, hubp, hureg, huenv, humem⟩ := save_block (ω := ω) (c := -16) s' (aligned_and _).2
  have hsave : M.Reaches s' { u with rip := L.asmSyscallHook 25 } := (hM.slice 12 13).reaches hrip' hu
  have hcall : M.fetch (L.asmSyscallHook 25) = some (.call L.syscallHook, L.asmSyscallHook 26) :=
    hM 25 (by simp [asmSyscallHook])
  have hstep := Machine.step_of_fetch (s := { u with rip := L.asmSyscallHook 25 }) hcall
  have hsaved : saved s' = saved s := by simp [saved, State.top, hreg', hmem']
  rw [hreg', ← hb] at husp
  rw [hreg', hmem', ← hb, hsaved] at humem
  refine ⟨_, hs'.trans (hsave.trans (.of_step hstep (.refl _))), rfl, ?_, ?_, ?_, huenv.trans henv', ?_⟩
  · simp [husp]
    bv_omega
  · simp [hubp, hreg']
  · intro q hbp hsp
    simp [hsp, hureg q hbp hsp, hreg']
  · rw [storeDown_concat, ← humem]
    simp [husp, saved]
    congr 1
    bv_omega

/-- The arguments of the call are on the stack and in the registers. -/
theorem args_eq {v : State ε} {b : Word} (hsp : v.reg .rsp = b - 88)
    (hreg : ∀ q, q ≠ .rbp → q ≠ .rsp → v.reg q = s.reg q)
    (hslot : ∀ i (hi : i < 10), load v.mem (b - .ofNat 64 (8 * (i + 1))) = (saved s).get ⟨i, hi⟩) :
    v.args 9 = hookArgs s s.top := by
  have hat (j i : ℕ) (hij : i + j = 10) : v.reg .rsp + .ofNat 64 (8 * j) = b - .ofNat 64 (8 * (i + 1)) := by
    rw [hsp]
    bv_omega
  have h6 : load v.mem (v.reg .rsp + .ofNat 64 (8 * 1)) = s.reg .r10 := by
    rw [hat 1 9 rfl]
    exact hslot 9 (by omega)
  have h7 : load v.mem (v.reg .rsp + .ofNat 64 (8 * 2)) = s.reg .rax := by
    rw [hat 2 8 rfl]
    exact hslot 8 (by omega)
  have h8 : load v.mem (v.reg .rsp + .ofNat 64 (8 * 3)) = s.top := by
    rw [hat 3 7 rfl]
    exact hslot 7 (by omega)
  funext i
  fin_cases i
  all_goals simp_all [State.args, State.arg, hookArgs]

/-- The way back from the call, when the saved words are still there. -/
theorem asm_restore (hM : M.Holds (asmSyscallHook L) L.asmSyscallHook) {w : State ε} {b : Word}
    (hrip : w.rip = L.asmSyscallHook 26) (hsp : w.reg .rsp = b - 80) (hbp : w.reg .rbp = s.reg .rsp - 8)
    (hslot : ∀ i (hi : i < 7), load w.mem (b - .ofNat 64 (8 * (i + 1))) = (saved s).get ⟨i, by simp [saved]; omega⟩)
    (hsave : ∀ q : Reg, q.calleeSaved → q ≠ .rbp → w.reg q = s.reg q)
    (hrbp : load w.mem (s.reg .rsp - 8) = s.reg .rbp) (hret : load w.mem (s.reg .rsp) = s.top) :
    ∃ t, M.Reaches w t ∧ t.rip = s.top ∧ t.reg .rsp = s.reg .rsp + 8 ∧ t.reg .rax = w.reg .rax ∧
      t.reg .r10 = load w.mem (b - 80) ∧
      (∀ q, q ≠ .rax → q ≠ .rsp → q ≠ .r10 → t.reg q = s.reg q) ∧ t.env = w.env ∧ t.mem = w.mem := by
  obtain ⟨u, hu, hu10, hureg, hubp, husp, huax, husave, huenv, humem⟩ := restore_block (ω := ω) w
  have hrestore : M.Reaches w { u with rip := L.asmSyscallHook 36 } := (hM.slice 26 10).reaches hrip hu
  have hretq : M.fetch (L.asmSyscallHook 36) = some (.ret, L.asmSyscallHook 37) :=
    hM 36 (by simp [asmSyscallHook])
  have hstep := Machine.step_of_fetch (s := { u with rip := L.asmSyscallHook 36 }) hretq
  have husp' : u.reg .rsp = s.reg .rsp := by rw [husp, hbp, BitVec.sub_add_cancel]
  have hpop (i : ℕ) (hi : i < 7) : u.reg ([Reg.rcx, .rdx, .rsi, .rdi, .r8, .r9, .r11].get ⟨i, hi⟩) =
      (saved s).get ⟨6 - i, by simp [saved]; omega⟩ := by
    rw [hureg i hi, hsp, ← hslot (6 - i) (by omega)]
    congr 1
    bv_omega
  refine ⟨_, hrestore.trans (.of_step hstep (.refl _)), ?_, ?_, ?_, ?_, ?_, huenv, humem⟩
  · simp [State.top, husp', humem, hret]
  · simp [husp']
  · simp [huax]
  · simp [hu10, State.top, hsp]
  · intro q hax hqs h10
    rw [State.drop_reg, Function.update_of_ne hqs]
    cases q with
    | rax => exact absurd rfl hax
    | rsp => exact absurd rfl hqs
    | r10 => exact absurd rfl h10
    | rcx => exact hpop 0 (by omega)
    | rdx => exact hpop 1 (by omega)
    | rsi => exact hpop 2 (by omega)
    | rdi => exact hpop 3 (by omega)
    | r8 => exact hpop 4 (by omega)
    | r9 => exact hpop 5 (by omega)
    | r11 => exact hpop 6 (by omega)
    | rbp =>
      rw [hubp, hbp]
      exact hrbp
    | rbx | r12 | r13 | r14 | r15 => exact (husave _ rfl (by simp)).trans (hsave _ rfl (by simp))

/-- The call of `syscall_hook` and the way back. -/
theorem asm_body (hM : M.Holds (asmSyscallHook L) L.asmSyscallHook) (hf : Implements M L.syscallHook k K f)
    (hk : k ≤ 3) (hK : K + 256 ≤ 2 ^ 64) (hrip : s.rip = L.skipPop) (hne : s.reg .rax ≠ 15)
    (hframe : Framed f (hookArgs s s.top) (s.reg .rsp + 8) (K + 128) s.mem s.env)
    (hr : f (hookArgs s s.top) s.mem s.env = some r) :
    ∃ t, M.Reaches s t ∧ Resumes s s.top (s.reg .rsp + 8) k (K + 128) r t := by
  obtain ⟨v, hv, hvrip, hvsp, hvbp, hvreg, hvenv, hvmem⟩ := asm_save hM hrip hne rfl
  obtain ⟨halign, hdist⟩ := aligned_and (s.reg .rsp - 8)
  generalize s.reg .rsp - 8 &&& -16 = b at *
  have hslot (i : ℕ) (hi : i < 11) : load v.mem (b - .ofNat 64 (8 * (i + 1))) =
      (saved s ++ [L.asmSyscallHook 26]).get ⟨i, hi⟩ := by
    rw [hvmem]
    exact load_storeDown (by simp [saved]) hi
  have hargs : v.args 9 = hookArgs s s.top := args_eq hvsp hvreg fun i hi =>
    (hslot i (by omega)).trans (List.getElem_append_left hi)
  have hframed : EqAbove (s.reg .rsp) 111 s.mem v.mem := by
    rw [hvmem]
    exact eqAbove_frame hdist (by simp [saved])
  -- what the function computes does not depend on the frame
  have hbelow : EqAbove (s.reg .rsp + 8) (K + 128) s.mem v.mem := hframed.mono (by bv_omega) (by omega)
  have hr' := hframe.congr hbelow hr
  have hfree := hframe.of_eqAbove hbelow
  obtain ⟨w, hw, hret⟩ := hf v _ hvrip (by rw [hvsp]; bv_omega)
    (by rw [hargs, hvenv]; exact hfree.part (by rw [hvsp]; bv_omega) (by omega)) (by rw [hargs, hvenv]; exact hr')
  -- and the words of the frame that the function does not own are still there
  have hload (x : Word) (hx : (x - (v.reg .rsp + .ofNat 64 (8 * (k + 1)))).toNat ≤ 128)
      (hx8 : 8 ≤ (s.reg .rsp + 8 - x).toNat) (hxK : (s.reg .rsp + 8 - x).toNat ≤ 128) : load w.mem x = load v.mem x := by
    rw [hret.mem.load_eq (by omega)]
    exact load_splice hx8 (by omega)
  have htop : w.rip = L.asmSyscallHook 26 := by
    rw [hret.rip, State.top, show v.reg .rsp = b - .ofNat 64 (8 * (10 + 1)) by rw [hvsp]; rfl]
    exact hslot 10 (by omega)
  obtain ⟨t, ht, htrip, htsp, htax, ht10, htreg, htenv, htmem⟩ := asm_restore (s := s) (b := b) hM htop
    (by rw [hret.rsp, hvsp]; bv_omega) (by rw [hret.saved _ rfl, hvbp])
    (fun i hi => by
      rw [hload _ (by rw [hvsp]; bv_omega) (by bv_omega) (by bv_omega)]
      exact (hslot i (by omega)).trans (List.getElem_append_left _))
    (fun q hq hbp => (hret.saved q hq).trans (hvreg q hbp (calleeSaved_notMem hq).2.1))
    (by
      rw [hload _ (by rw [hvsp]; bv_omega) (by bv_omega) (by bv_omega), hvmem]
      exact load_frame hdist (by simp [saved]))
    (by
      rw [hload _ (by rw [hvsp]; bv_omega) (by bv_omega) (by bv_omega)]
      exact hframed.load_eq (by bv_omega))
  refine ⟨t, hv.trans (hw.trans ht), htrip, htsp, htax.trans hret.rax, ?_, htenv.trans hret.env, ?_⟩
  · intro q hax hqs h10
    by_cases hq : q = .r10
    · subst hq
      obtain rfl : k = 0 := h10 rfl
      rw [ht10, hload _ (by rw [hvsp]; bv_omega) (by bv_omega) (by bv_omega)]
      exact hslot 9 (by omega)
    · exact htreg q hax hqs hq
  · rw [htmem]
    exact (eqAbove_splice _ _ _ _).trans (hret.mem.mono (by rw [hvsp]; bv_omega) (by omega))

/-- `rt_sigreturn` is made with the registers and the stack of the program. -/
theorem asm_sigreturn (hM : M.Holds (asmSyscallHook L) L.asmSyscallHook) (hrip : s.rip = L.skipPop)
    (h15 : s.reg .rax = 15) :
    ∃ t, M.Reaches s t ∧ t.rip = L.syscallAddr ∧ t.reg .rsp = s.reg .rsp + 8 ∧
      (∀ q, q ≠ .rsp → t.reg q = s.reg q) ∧ t.env = s.env ∧ t.mem = s.mem := by
  obtain ⟨u, hu, hurip, hureg, huenv, humem⟩ := asm_compare hM hrip
  rw [if_pos h15] at hurip
  have hadd : M.fetch u.rip = some (.addImm 8 .rsp, L.asmSyscallHook 38) := by
    rw [hurip]
    exact hM 37 (by simp [asmSyscallHook])
  have hstep := Machine.step_of_fetch hadd
  rw [Machine.exec_of_straight rfl] at hstep
  obtain ⟨v, hv, hvrip, hvsp, hvreg, hvenv, hvmem⟩ : ∃ v, M.step u = some v ∧ v.rip = L.asmSyscallHook 38 ∧
      v.reg .rsp = u.reg .rsp + 8 ∧ (∀ q, q ≠ .rsp → v.reg q = u.reg q) ∧ v.env = u.env ∧ v.mem = u.mem :=
    ⟨_, hstep, rfl, by simp, fun q hq => by simp [hq], rfl, rfl⟩
  have hjmp : M.fetch v.rip = some (.jmp L.syscallAddr, L.asmSyscallHook 39) := by
    rw [hvrip]
    exact hM 38 (by simp [asmSyscallHook])
  refine ⟨_, hu.trans (.of_step hv (.of_step (Machine.step_of_fetch hjmp) (.refl _))), rfl, ?_, ?_,
    hvenv.trans huenv, hvmem.trans humem⟩
  · rw [hvsp, hureg]
  · intro q hq
    exact (hvreg q hq).trans (congrFun hureg q)

end Pthabt.Zpoline
