import Mathlib.Data.Fintype.Basic
import Pthabt.Lib.X86

/-! The calling convention of x86-64: what the code that calls a compiled function may rely on. -/

namespace Pthabt.Lib.X86

open Memory

variable {ω ε : Type*} {M : Machine ω ε} {n : ℕ}

/-- A function of `n` words: its value, the memory and the rest of the world after it. -/
abbrev CFun (n : ℕ) (ε : Type*) := (Fin n → Word) → Mem → ε → Option (Word × Mem × ε)

/-- The arguments at the entry of a function. The return address is on top of the stack. -/
def State.arg (s : State ε) : ℕ → Word
  | 0 => s.reg .rdi
  | 1 => s.reg .rsi
  | 2 => s.reg .rdx
  | 3 => s.reg .rcx
  | 4 => s.reg .r8
  | 5 => s.reg .r9
  | i + 6 => load s.mem (s.reg .rsp + .ofNat 64 (8 * (i + 1)))

def State.args (s : State ε) (n : ℕ) : Fin n → Word := fun i => s.arg i

/-- The registers that a function keeps. -/
def Reg.calleeSaved : Reg → Bool
  | .rbx | .rbp | .r12 | .r13 | .r14 | .r15 => true
  | _ => false

/-- The function neither reads nor writes the `K` bytes below `p`. -/
def Framed (f : CFun n ε) (a : Fin n → Word) (p : Word) (K : ℕ) (m : Mem) (e : ε) : Prop :=
  ∀ m', f a (splice p K m' m) e = (f a m e).map fun r => (r.1, splice p K m' r.2.1, r.2.2)

/-- The state `t` after a return from the call that began in `s`, where `r` is what the function computes
and `k` the number of argument words on the stack that it overwrote. -/
structure Returns (s : State ε) (k K : ℕ) (r : Word × Mem × ε) (t : State ε) : Prop where
  rip : t.rip = s.top
  rsp : t.reg .rsp = s.reg .rsp + 8
  saved : ∀ q : Reg, q.calleeSaved → t.reg q = s.reg q
  rax : t.reg .rax = r.1
  env : t.env = r.2.2
  mem : EqAbove (s.reg .rsp + .ofNat 64 (8 * (k + 1))) K r.2.1 t.mem

/-- The code at `a` computes `f` on a stack of `K` bytes. -/
def Implements (M : Machine ω ε) (a : Word) (k K : ℕ) (f : CFun n ε) : Prop :=
  ∀ s r, s.rip = a → (s.reg .rsp + 8).toNat % 16 = 0 →
    Framed f (s.args n) (s.reg .rsp + .ofNat 64 (8 * (k + 1))) K s.mem s.env →
    f (s.args n) s.mem s.env = some r → ∃ t, M.Reaches s t ∧ Returns s k K r t

variable {f : CFun n ε} {a : Fin n → Word} {p q : Word} {k K : ℕ} {m m' : Mem} {e : ε} {r : Word × Mem × ε}

/-- The function does not write the bytes. -/
theorem Framed.keeps (h : Framed f a p K m e) (hr : f a m e = some r) : splice p K m r.2.1 = r.2.1 := by
  have hm := h m
  rw [splice_self, hr] at hm
  exact (congrArg (fun r => r.2.1) (Option.some.inj hm)).symm

/-- It does the same after a change of the bytes. -/
theorem Framed.congr (h : Framed f a p K m e) (hm : EqAbove p K m m') (hr : f a m e = some r) :
    f a m' e = some (r.1, splice p K m' r.2.1, r.2.2) := by
  have h' := h m'
  rw [hm.splice_eq, hr] at h'
  exact h'

theorem Framed.of_eqAbove (h : Framed f a p K m e) (hm : EqAbove p K m m') : Framed f a p K m' e := by
  intro m₁
  have h₁ := h m₁
  have h' := h m'
  rw [hm.splice_eq] at h'
  rw [← hm.splice_eq, splice_splice, h₁, hm.splice_eq, h', Option.map_map]
  simp only [Function.comp_def, splice_splice]

/-- It does not use a part of the bytes. -/
theorem Framed.part (h : Framed f a p K m e) (hq : (p - q).toNat + k ≤ K) (hK : K < 2 ^ 64) :
    Framed f a q k m e := by
  intro m₁
  have hm : splice p K (splice q k m₁ m) m = splice q k m₁ m :=
    ((eqAbove_splice q k m m₁).mono hq hK).splice_eq
  have h' := h (splice q k m₁ m)
  rw [hm] at h'
  rw [h']
  cases hr : f a m e with
  | none => rfl
  | some r =>
    have hkeeps := h.keeps hr
    have hmem : splice p K (splice q k m₁ m) r.2.1 = splice q k m₁ r.2.1 := by
      funext x
      have hx := congrFun hkeeps x
      by_cases hq' : Below q k x
      · simp only [splice, if_pos hq', if_pos (hq'.mono hq hK)]
      · simp only [splice, if_neg hq'] at hx ⊢
        exact hx
    simp only [Option.map_some, hmem]

end Pthabt.Lib.X86
