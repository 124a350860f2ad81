import Mathlib.Logic.Function.Basic
import Mathlib.Logic.Relation
import Pthabt.Lib.Memory

/-! A part of x86-64: the stack, moves, the arithmetic and the jumps of hand-written stubs, and system
calls. The other instructions and what the kernel does are given. The operands stand in the order of the
GNU assembler, and a label is an address. -/

namespace Pthabt.Lib.X86

open Memory

inductive Reg where
  | rax | rbx | rcx | rdx | rsi | rdi | rbp | rsp | r8 | r9 | r10 | r11 | r12 | r13 | r14 | r15
  deriving DecidableEq

/-- Registers, the two flags that stubs test, memory, and the rest of the world. -/
structure State (ε : Type*) where
  reg : Reg → Word
  cf : Bool
  zf : Bool
  rip : Word
  mem : Mem
  env : ε

inductive Instr (ω : Type*) where
  | nop
  | push (r : Reg)
  | pushImm (v : Word)
  | pushMem (disp : Word) (base : Reg)
  | pop (r : Reg)
  | mov (src dst : Reg)
  | movImm (v : Word) (dst : Reg)
  | movMem (disp : Word) (base dst : Reg)
  | imul (src dst : Reg)
  | cmp (src dst : Reg)
  | cmpImm (v : Word) (dst : Reg)
  | addImm (v : Word) (dst : Reg)
  | andImm (v : Word) (dst : Reg)
  | leave
  | jmp (a : Word)
  | jmpReg (r : Reg)
  | jb (a : Word)
  | je (a : Word)
  | call (a : Word)
  | callReg (r : Reg)
  | ret
  | syscall
  | other (o : ω)

variable {ω ε : Type*}

namespace State

def set (s : State ε) (r : Reg) (v : Word) : State ε := { s with reg := Function.update s.reg r v }

def push (s : State ε) (v : Word) : State ε :=
  { s.set .rsp (s.reg .rsp - 8) with mem := store s.mem (s.reg .rsp - 8) v }

/-- The word on top of the stack. -/
def top (s : State ε) : Word := load s.mem (s.reg .rsp)

/-- Drop the word on top of the stack. -/
def drop (s : State ε) : State ε := s.set .rsp (s.reg .rsp + 8)

/-- The flags of a comparison. -/
def compare (s : State ε) (dst src : Word) : State ε :=
  { s with cf := decide (dst.toNat < src.toNat), zf := decide (dst = src) }

variable (s : State ε) (r : Reg) (v w : Word)

@[simp] theorem set_reg : (s.set r v).reg = Function.update s.reg r v := rfl
@[simp] theorem set_mem : (s.set r v).mem = s.mem := rfl
@[simp] theorem set_rip : (s.set r v).rip = s.rip := rfl
@[simp] theorem set_env : (s.set r v).env = s.env := rfl
@[simp] theorem set_cf : (s.set r v).cf = s.cf := rfl
@[simp] theorem set_zf : (s.set r v).zf = s.zf := rfl
@[simp] theorem push_reg : (s.push v).reg = Function.update s.reg .rsp (s.reg .rsp - 8) := rfl
@[simp] theorem push_mem : (s.push v).mem = store s.mem (s.reg .rsp - 8) v := rfl
@[simp] theorem push_rip : (s.push v).rip = s.rip := rfl
@[simp] theorem push_env : (s.push v).env = s.env := rfl
@[simp] theorem push_cf : (s.push v).cf = s.cf := rfl
@[simp] theorem push_zf : (s.push v).zf = s.zf := rfl
@[simp] theorem drop_reg : s.drop.reg = Function.update s.reg .rsp (s.reg .rsp + 8) := rfl
@[simp] theorem drop_mem : s.drop.mem = s.mem := rfl
@[simp] theorem drop_rip : s.drop.rip = s.rip := rfl
@[simp] theorem drop_env : s.drop.env = s.env := rfl
@[simp] theorem drop_cf : s.drop.cf = s.cf := rfl
@[simp] theorem drop_zf : s.drop.zf = s.zf := rfl
@[simp] theorem compare_reg : (s.compare v w).reg = s.reg := rfl
@[simp] theorem compare_mem : (s.compare v w).mem = s.mem := rfl
@[simp] theorem compare_rip : (s.compare v w).rip = s.rip := rfl
@[simp] theorem compare_env : (s.compare v w).env = s.env := rfl
@[simp] theorem compare_cf : (s.compare v w).cf = decide (v.toNat < w.toNat) := rfl
@[simp] theorem compare_zf : (s.compare v w).zf = decide (v = w) := rfl

end State

/-- The instructions after which the next one follows. -/
def Instr.straight : Instr ω → State ε → Option (State ε)
  | .nop, s => some s
  | .push r, s => some (s.push (s.reg r))
  | .pushImm v, s => some (s.push v)
  | .pushMem disp base, s => some (s.push (load s.mem (s.reg base + disp)))
  | .pop r, s => some (s.drop.set r s.top)
  | .mov src dst, s => some (s.set dst (s.reg src))
  | .movImm v dst, s => some (s.set dst v)
  | .movMem disp base dst, s => some (s.set dst (load s.mem (s.reg base + disp)))
  | .imul src dst, s =>
    -- the carry flag tells that the signed product does not fit, and the zero flag is undefined
    let v := s.reg dst * s.reg src
    some { s.set dst v with cf := decide (v.toInt ≠ (s.reg dst).toInt * (s.reg src).toInt) }
  | .cmp src dst, s => some (s.compare (s.reg dst) (s.reg src))
  | .cmpImm v dst, s => some (s.compare (s.reg dst) v)
  | .addImm v dst, s =>
    let w := s.reg dst + v
    some { s.set dst w with cf := decide (2 ^ 64 ≤ (s.reg dst).toNat + v.toNat), zf := decide (w = 0) }
  | .andImm v dst, s =>
    let w := s.reg dst &&& v
    some { s.set dst w with cf := false, zf := decide (w = 0) }
  | .leave, s => some (((s.set .rsp (s.reg .rbp)).drop).set .rbp (load s.mem (s.reg .rbp)))
  | _, _ => none

/-- The encodings of some instructions, with the address after the instruction. -/
def decode (m : Mem) (a : Word) : Option (Instr ω × Word) :=
  match (m a).toNat with
  | 0xeb => some (.jmp (a + 2 + (m (a + 1)).signExtend 64), a + 2)
  | 0x6a => some (.pushImm ((m (a + 1)).signExtend 64), a + 2)
  | 0x90 => some (.nop, a + 1)
  | 0x50 => some (.push .rax, a + 1)
  | 0x48 => if m (a + 1) = 0xb8 then some (.movImm (load m (a + 2)) .rax, a + 10) else none
  | 0xff =>
    if m (a + 1) = 0xd0 then some (.callReg .rax, a + 2)
    else if m (a + 1) = 0xe0 then some (.jmpReg .rax, a + 2) else none
  | 0x0f => if m (a + 1) = 0x05 then some (.syscall, a + 2) else none
  | _ => none

section Decode

variable {m : Mem} {a : Word}

theorem decode_jmp (h : m a = 0xeb) :
    decode (ω := ω) m a = some (.jmp (a + 2 + (m (a + 1)).signExtend 64), a + 2) := by
  simp [decode, h]

theorem decode_pushImm (h : m a = 0x6a) :
    decode (ω := ω) m a = some (.pushImm ((m (a + 1)).signExtend 64), a + 2) := by
  simp [decode, h]

theorem decode_nop (h : m a = 0x90) : decode (ω := ω) m a = some (.nop, a + 1) := by simp [decode, h]

theorem decode_push (h : m a = 0x50) : decode (ω := ω) m a = some (.push .rax, a + 1) := by simp [decode, h]

theorem decode_movImm (h : m a = 0x48) (h' : m (a + 1) = 0xb8) :
    decode (ω := ω) m a = some (.movImm (load m (a + 2)) .rax, a + 10) := by
  simp_all [decode]

theorem decode_jmpReg (h : m a = 0xff) (h' : m (a + 1) = 0xe0) :
    decode (ω := ω) m a = some (.jmpReg .rax, a + 2) := by
  simp_all [decode]

end Decode

/-- The code, and the given parts: the effect of `syscall`, before which `rip` is the next address, and
the other instructions. -/
structure Machine (ω ε : Type*) where
  fetch : Word → Option (Instr ω × Word)
  kernel : State ε → Option (State ε)
  other : ω → Word → State ε → Option (State ε)

namespace Machine

variable (M : Machine ω ε)

def exec (i : Instr ω) (next : Word) (s : State ε) : Option (State ε) :=
  match i with
  | .jmp a => some { s with rip := a }
  | .jmpReg r => some { s with rip := s.reg r }
  | .jb a => some { s with rip := if s.cf then a else next }
  | .je a => some { s with rip := if s.zf then a else next }
  | .call a => some { s.push next with rip := a }
  | .callReg r => some { s.push next with rip := s.reg r }
  | .ret => some { s.drop with rip := s.top }
  | .syscall => M.kernel { s with rip := next }
  | .other o => M.other o next s
  | i => (i.straight s).map fun t => { t with rip := next }

/-- One instruction. -/
def step (s : State ε) : Option (State ε) := (M.fetch s.rip).bind fun x => M.exec x.1 x.2 s

/-- The machine gets from one state to another. -/
def Reaches : State ε → State ε → Prop := Relation.ReflTransGen fun s t => M.step s = some t

variable {M} {s t u : State ε}

theorem Reaches.refl (s : State ε) : M.Reaches s s := Relation.ReflTransGen.refl

theorem Reaches.trans (h : M.Reaches s t) (h' : M.Reaches t u) : M.Reaches s u :=
  Relation.ReflTransGen.trans h h'

theorem Reaches.of_step (h : M.step s = some t) (h' : M.Reaches t u) : M.Reaches s u :=
  Relation.ReflTransGen.head h h'

/-- Of two states that are reached, one is on the way to the other. -/
theorem Reaches.total (h : M.Reaches s t) (h' : M.Reaches s u) : M.Reaches t u ∨ M.Reaches u t :=
  Relation.ReflTransGen.total_of_right_unique (fun _ _ _ ha hb => Option.some.inj (ha.symm.trans hb)) h h'

theorem step_of_fetch {i : Instr ω} {next : Word} (hf : M.fetch s.rip = some (i, next)) :
    M.step s = M.exec i next s := by
  simp [step, hf]

theorem exec_of_straight {i : Instr ω} {next : Word} (h : i.straight s = some t) :
    M.exec i next s = some { t with rip := next } := by
  cases i <;> simp_all [exec, Instr.straight]

/-! ### Blocks -/

/-- The listing `l` stands at the addresses `addr 0`, `addr 1` and so on. -/
def Holds (M : Machine ω ε) (l : List (Instr ω)) (addr : ℕ → Word) : Prop :=
  ∀ k (hk : k < l.length), M.fetch (addr k) = some (l[k], addr (k + 1))

/-- A part of a listing. -/
theorem Holds.slice {l : List (Instr ω)} {addr : ℕ → Word} (h : M.Holds l addr) (i n : ℕ) :
    M.Holds ((l.drop i).take n) fun k => addr (i + k) := by
  intro k hk
  have hlt : i + k < l.length := by
    rw [List.length_take, List.length_drop] at hk
    omega
  rw [h (i + k) hlt, List.getElem_take, List.getElem_drop]
  rfl

/-- The end of a block without jumps. -/
def runBlock : List (Instr ω) → State ε → Option (State ε)
  | [], s => some s
  | i :: l, s => (i.straight s).bind (runBlock l)

theorem runBlock_append (l l' : List (Instr ω)) (s : State ε) :
    runBlock (l ++ l') s = (runBlock l s).bind (runBlock l') := by
  induction l generalizing s with
  | nil => rfl
  | cons i l ih => simp only [List.cons_append, runBlock, Option.bind_assoc, ih]

/-- Words are popped, the first from the top of the stack. -/
theorem runBlock_pops (l : List Reg) (hnd : l.Nodup) (hsp : .rsp ∉ l) (s : State ε) :
    ∃ t, runBlock (l.map Instr.pop : List (Instr ω)) s = some t ∧
      (∀ i (hi : i < l.length), t.reg l[i] = load s.mem (s.reg .rsp + .ofNat 64 (8 * i))) ∧
      t.reg .rsp = s.reg .rsp + .ofNat 64 (8 * l.length) ∧
      (∀ q, q ∉ l → q ≠ .rsp → t.reg q = s.reg q) ∧ t.env = s.env ∧ t.mem = s.mem := by
  induction l generalizing s with
  | nil => exact ⟨s, rfl, by simp, by simp, by simp, rfl, rfl⟩
  | cons r l ih =>
    obtain ⟨hr, hnd⟩ := List.nodup_cons.mp hnd
    simp only [List.mem_cons, not_or] at hsp
    obtain ⟨t, ht, hreg, hsp', hrest, henv, hmem⟩ := ih hnd hsp.2 (s.drop.set r s.top)
    refine ⟨t, ht, ?_, ?_, ?_, henv, hmem⟩
    · intro i hi
      cases i with
      | zero =>
        rw [List.getElem_cons_zero, hrest r hr (Ne.symm hsp.1)]
        simp [State.top]
      | succ i =>
        rw [List.getElem_cons_succ, hreg i (Nat.lt_of_succ_lt_succ hi)]
        simp [Function.update_of_ne hsp.1]
        congr 1
        bv_omega
    · rw [hsp', List.length_cons]
      simp [Function.update_of_ne hsp.1]
      bv_omega
    · intro q hq hqs
      simp only [List.mem_cons, not_or] at hq
      rw [hrest q hq.2 hqs]
      simp [hq.1, hqs]

theorem straight_rip (i : Instr ω) (s : State ε) (a : Word) :
    i.straight { s with rip := a } = (i.straight s).map fun t => { t with rip := a } := by
  cases i <;> rfl

theorem runBlock_rip (l : List (Instr ω)) (a : Word) : ∀ {s t : State ε}, runBlock l s = some t →
    runBlock l { s with rip := a } = some { t with rip := a } := by
  induction l with
  | nil =>
    intro s t h
    rw [runBlock, Option.some.inj h]
  | cons i l ih =>
    intro s t h
    obtain ⟨u, hu, h⟩ := Option.bind_eq_some_iff.mp h
    rw [runBlock, straight_rip, hu]
    exact ih h

/-- A block without jumps is run through. -/
theorem Holds.reaches {l : List (Instr ω)} : ∀ {addr : ℕ → Word} {s t : State ε}, M.Holds l addr →
    s.rip = addr 0 → runBlock l s = some t → M.Reaches s { t with rip := addr l.length } := by
  induction l with
  | nil =>
    intro addr s t _ hrip h
    obtain rfl := Option.some.inj h
    rw [List.length_nil, ← hrip]
    exact .refl s
  | cons i l ih =>
    intro addr s t hl hrip h
    obtain ⟨u, hu, h⟩ := Option.bind_eq_some_iff.mp h
    have hf := hl 0 (Nat.succ_pos _)
    rw [← hrip] at hf
    have hstep : M.step s = some { u with rip := addr 1 } := by
      rw [step_of_fetch hf]
      exact exec_of_straight hu
    have htail : M.Holds l fun k => addr (k + 1) := fun k hk => hl (k + 1) (Nat.succ_lt_succ hk)
    have hrest := ih htail rfl (runBlock_rip l (addr 1) h)
    exact .of_step hstep hrest

end Machine

end Pthabt.Lib.X86
