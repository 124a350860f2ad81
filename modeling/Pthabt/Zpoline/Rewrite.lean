import Pthabt.Lib.X86
import Pthabt.Zpoline.Bitmap

/-! The rewriting of the code (`zpoline.c`): the disassembler goes through a piece of executable memory, and
each `syscall` and `sysenter` that it prints is replaced by `callq *%rax`. -/

namespace Pthabt.Zpoline

open Lib Memory

/-- The memory of the process, its protection, and `bm_mem`. -/
structure Process where
  mem : Mem
  prot : Word → ℕ
  bm : Bitmap

def protRead : ℕ := 1
def protWrite : ℕ := 2
def protExec : ℕ := 4

def mprotect (p : Process) (addr : Word) (len prot : ℕ) : Process :=
  { p with prot := fun a => if (a - addr).toNat < len then prot else p.prot a }

/-- A write to memory that may not be written ends the program. -/
def poke (p : Process) (a : Word) (v : BitVec 8) : Option Process :=
  if p.prot a &&& protWrite ≠ 0 then some { p with mem := Function.update p.mem a v } else none

/-- What the disassembler prints, piece by piece, for the instruction at an offset of a buffer of some
length, and the length of the instruction. -/
abbrev Disasm := (ℕ → BitVec 8) → ℕ → ℕ → List (List Char) × ℕ

/-- The comparisons with `strncmp`. -/
def isSystemCall (buf : List Char) : Bool :=
  buf.take 7 = "syscall".toList || buf.take 8 = "sysenter".toList

def doRewrite (syscallAddr code : Word) (off : ℕ) (p : Process) (buf : List Char) : Option Process :=
  if isSystemCall buf then
    let ptr := code + .ofNat 64 off
    -- the system call of enter_syscall stays
    if ptr = syscallAddr then some p
    else do
      let p ← poke p ptr 0xff
      let p ← poke p (ptr + 1) 0xd0
      let bm ← recordReplacedInstructionAddr p.bm ptr
      return { p with bm }
  else some p

/-- The loop from the offset `off` on. -/
def rewriteLoop (disasm : Disasm) (syscallAddr code : Word) (codeSize : ℕ) : ℕ → ℕ → Process → Option Process
  | 0, _, _ => none
  | fuel + 1, off, p =>
    if off < codeSize then do
      let d := disasm (fun i => p.mem (code + .ofNat 64 i)) codeSize off
      let p ← d.1.foldlM (doRewrite syscallAddr code off) p
      rewriteLoop disasm syscallAddr code codeSize fuel (off + d.2) p
    else some p

/-- Each instruction has at least one byte, so the loop makes at most `codeSize` rounds. -/
def disassembleAndRewrite (disasm : Disasm) (syscallAddr : Word) (p : Process) (code : Word) (codeSize memProt : ℕ) :
    Option Process := do
  let p := mprotect p code codeSize (protWrite ||| protRead ||| protExec)
  let p ← rewriteLoop disasm syscallAddr code codeSize (codeSize + 1) 0 p
  return mprotect p code codeSize memProt

/-- What is known of the disassembler: it gets on, it does not look back, and the two instructions have two
bytes each. -/
structure Disassembles (disasm : Disasm) : Prop where
  pos : ∀ buf size off, off < size → 0 < (disasm buf size off).2
  forward : ∀ buf buf' size off, (∀ i, off ≤ i → i < size → buf i = buf' i) → disasm buf size off = disasm buf' size off
  two : ∀ buf size off, off < size → (disasm buf size off).1.any isSystemCall → (disasm buf size off).2 = 2 ∧ off + 2 ≤ size

/-- The offsets of the instructions, from `off` on. -/
def starts (disasm : Disasm) (codeSize : ℕ) (buf : ℕ → BitVec 8) : ℕ → ℕ → List ℕ
  | 0, _ => []
  | fuel + 1, off =>
    if off < codeSize then off :: starts disasm codeSize buf fuel (off + (disasm buf codeSize off).2) else []

/-- The instruction at an offset is replaced. -/
def isSite (disasm : Disasm) (syscallAddr code : Word) (codeSize : ℕ) (buf : ℕ → BitVec 8) (off : ℕ) : Bool :=
  (disasm buf codeSize off).1.any isSystemCall && decide (code + .ofNat 64 off ≠ syscallAddr)

/-- The offsets of the system calls in the code, from `off` on. -/
def sites (disasm : Disasm) (syscallAddr code : Word) (codeSize : ℕ) (buf : ℕ → BitVec 8) (fuel off : ℕ) : List ℕ :=
  (starts disasm codeSize buf fuel off).filter (isSite disasm syscallAddr code codeSize buf)

/-- The code `m'` is `m` with `callq *%rax` at the addresses of `P`. -/
structure RewrittenTo (P : Word → Prop) (m m' : Mem) : Prop where
  call : ∀ a, P a → m' a = 0xff ∧ m' (a + 1) = 0xd0
  rest : ∀ x, ¬ P x → ¬ P (x - 1) → m' x = m x

namespace RewrittenTo

variable {P Q : Word → Prop} {m m₁ m₂ : Mem}

theorem of_iff (h : RewrittenTo P m m₁) (hiff : ∀ a, P a ↔ Q a) : RewrittenTo Q m m₁ := by
  rwa [← funext fun a => propext (hiff a)]

theorem refl (m : Mem) : RewrittenTo (fun _ => False) m m where
  call _ h := h.elim
  rest _ _ _ := rfl

/-- One rewriting after another that is apart from it. -/
theorem trans (h : RewrittenTo P m m₁) (h' : RewrittenTo Q m₁ m₂)
    (hapart : ∀ a, P a → ¬ Q a ∧ ¬ Q (a + 1) ∧ ¬ Q (a - 1)) : RewrittenTo (fun a => P a ∨ Q a) m m₂ where
  call a ha := by
    by_cases hq : Q a
    · exact h'.call a hq
    · obtain ⟨h0, h1, h2⟩ := hapart a (ha.resolve_right hq)
      obtain ⟨hff, hd0⟩ := h.call a (ha.resolve_right hq)
      have hadd : a + 1 - 1 = a := BitVec.add_sub_cancel a 1
      exact ⟨(h'.rest a h0 h2).trans hff, (h'.rest (a + 1) h1 (by rwa [hadd])).trans hd0⟩
  rest x hx hx' := by
    rw [not_or] at hx hx'
    exact (h'.rest x hx.2 hx'.2).trans (h.rest x hx.1 hx'.1)

end RewrittenTo

/-- The addresses of the offsets. -/
def AtSites (code : Word) (l : List ℕ) (a : Word) : Prop := ∃ o ∈ l, a = code + .ofNat 64 o

theorem atSites_cons {code a : Word} {off : ℕ} {l : List ℕ} :
    AtSites code (off :: l) a ↔ a = code + .ofNat 64 off ∨ AtSites code l a := by
  simp [AtSites]

/-- The process after one replacement. -/
def Process.replaced (p : Process) (ptr : Word) : Process :=
  { p with mem := Function.update (Function.update p.mem ptr 0xff) (ptr + 1) 0xd0, bm := bitmapSet p.bm ptr }

section Piece

variable {syscallAddr code : Word} {off : ℕ} {p : Process} {buf : List Char}

theorem doRewrite_other (h : isSystemCall buf = false ∨ code + .ofNat 64 off = syscallAddr) :
    doRewrite syscallAddr code off p buf = some p := by
  unfold doRewrite
  split
  · rw [if_pos (h.resolve_left (by simp [*]))]
  · rfl

theorem doRewrite_call (h : isSystemCall buf) (hne : code + .ofNat 64 off ≠ syscallAddr)
    (hw : p.prot (code + .ofNat 64 off) &&& protWrite ≠ 0) (hw' : p.prot (code + .ofNat 64 off + 1) &&& protWrite ≠ 0)
    (hlt : code + .ofNat 64 off < (1 : Word) <<< 48) :
    doRewrite syscallAddr code off p buf = some (p.replaced (code + .ofNat 64 off)) := by
  unfold doRewrite poke recordReplacedInstructionAddr
  rw [if_pos h]
  simp only [if_neg hne, if_pos hw, if_pos hw', if_pos hlt, Option.bind_eq_bind, Option.bind_some]
  rfl

theorem replaced_replaced (p : Process) (ptr : Word) : (p.replaced ptr).replaced ptr = p.replaced ptr := by
  have hmem : Function.update (Function.update (Function.update (Function.update p.mem ptr 0xff) (ptr + 1) 0xd0) ptr
      0xff) (ptr + 1) 0xd0 = Function.update (Function.update p.mem ptr 0xff) (ptr + 1) 0xd0 := by
    funext x
    simp only [Function.update_apply]
    split_ifs <;> rfl
  have hbm : bitmapSet (bitmapSet p.bm ptr) ptr = bitmapSet p.bm ptr := by
    simp [bitmapSet, BitVec.or_assoc]
  simp only [Process.replaced, hmem, hbm]

/-- The pieces of one instruction, whatever they are. -/
theorem foldlM_doRewrite (hne : code + .ofNat 64 off ≠ syscallAddr)
    (hw : p.prot (code + .ofNat 64 off) &&& protWrite ≠ 0) (hw' : p.prot (code + .ofNat 64 off + 1) &&& protWrite ≠ 0)
    (hlt : code + .ofNat 64 off < (1 : Word) <<< 48) (l : List (List Char)) :
    l.foldlM (doRewrite syscallAddr code off) p =
      some (if l.any isSystemCall then p.replaced (code + .ofNat 64 off) else p) := by
  -- once replaced, it stays so
  have hstay (l : List (List Char)) : l.foldlM (doRewrite syscallAddr code off) (p.replaced (code + .ofNat 64 off)) =
      some (p.replaced (code + .ofNat 64 off)) := by
    induction l with
    | nil => rfl
    | cons buf l ih =>
      have hbuf : doRewrite syscallAddr code off (p.replaced (code + .ofNat 64 off)) buf =
          some (p.replaced (code + .ofNat 64 off)) := by
        by_cases h : isSystemCall buf
        · exact (doRewrite_call (p := p.replaced _) h hne hw hw' hlt).trans (by rw [replaced_replaced])
        · exact doRewrite_other (.inl (by simpa using h))
      rw [List.foldlM_cons, hbuf, Option.bind_eq_bind, Option.bind_some, ih]
  induction l with
  | nil => rfl
  | cons buf l ih =>
    rw [List.foldlM_cons, List.any_cons]
    by_cases h : isSystemCall buf
    · rw [doRewrite_call h hne hw hw' hlt, h, Bool.true_or, if_pos rfl]
      exact hstay l
    · rw [doRewrite_other (.inl (by simpa using h)), Bool.eq_false_iff.mpr h, Bool.false_or]
      exact ih

theorem foldlM_doRewrite_other (l : List (List Char))
    (h : l.any isSystemCall = false ∨ code + .ofNat 64 off = syscallAddr) :
    l.foldlM (doRewrite syscallAddr code off) p = some p := by
  induction l with
  | nil => rfl
  | cons buf l ih =>
    rw [List.any_cons, Bool.or_eq_false_iff] at h
    rw [List.foldlM_cons, doRewrite_other (h.imp_left And.left)]
    exact ih (h.imp_left And.right)

end Piece

section Loop

variable {disasm : Disasm} {syscallAddr code : Word} {size : ℕ} {buf : ℕ → BitVec 8}

theorem starts_bounds {fuel off o : ℕ} (h : o ∈ starts disasm size buf fuel off) : off ≤ o ∧ o < size := by
  induction fuel generalizing off with
  | zero => simp [starts] at h
  | succ fuel ih =>
    rw [starts] at h
    split at h
    · rcases List.mem_cons.mp h with rfl | h
      · omega
      · have hrest := ih h
        omega
    · simp at h

theorem isSite_iff {off : ℕ} : isSite disasm syscallAddr code size buf off ↔
    (disasm buf size off).1.any isSystemCall ∧ code + .ofNat 64 off ≠ syscallAddr := by
  rw [isSite, Bool.and_eq_true, decide_eq_true_eq]

theorem sites_bounds (hd : Disassembles disasm) {fuel off o : ℕ}
    (h : o ∈ sites disasm syscallAddr code size buf fuel off) : off ≤ o ∧ o + 2 ≤ size := by
  obtain ⟨hstart, hsite⟩ := List.mem_filter.mp h
  obtain ⟨hle, hlt⟩ := starts_bounds hstart
  exact ⟨hle, (hd.two buf size o hlt (isSite_iff.mp hsite).1).2⟩

/-- An instruction ends before the next one begins. -/
theorem starts_apart {fuel off o o' : ℕ} (h : o ∈ starts disasm size buf fuel off)
    (h' : o' ∈ starts disasm size buf fuel off) (hlt : o < o') : o + (disasm buf size o).2 ≤ o' := by
  induction fuel generalizing off with
  | zero => simp [starts] at h
  | succ fuel ih =>
    rw [starts] at h h'
    split at h
    · rename_i hoff
      rw [if_pos hoff] at h'
      rcases List.mem_cons.mp h with rfl | h <;> rcases List.mem_cons.mp h' with rfl | h'
      · omega
      · exact (starts_bounds h').1
      · have hle := (starts_bounds h).1
        omega
      · exact ih h h'
    · simp at h

/-- The instructions depend on the code alone. -/
theorem starts_congr (hd : Disassembles disasm) {buf' : ℕ → BitVec 8} (h : ∀ i < size, buf i = buf' i) (fuel off : ℕ) :
    starts disasm size buf fuel off = starts disasm size buf' fuel off := by
  induction fuel generalizing off with
  | zero => rfl
  | succ fuel ih => simp only [starts, hd.forward buf buf' size off fun i _ hi => h i hi, ih]

theorem sites_congr (hd : Disassembles disasm) {buf' : ℕ → BitVec 8} (h : ∀ i < size, buf i = buf' i) (fuel off : ℕ) :
    sites disasm syscallAddr code size buf fuel off = sites disasm syscallAddr code size buf' fuel off := by
  rw [sites, sites, starts_congr hd h]
  refine List.filter_congr fun o _ => ?_
  simp only [isSite, hd.forward buf buf' size o fun i _ hi => h i hi]

theorem rewrittenTo_replaced (p : Process) (ptr : Word) : RewrittenTo (· = ptr) p.mem (p.replaced ptr).mem where
  call a ha := by
    subst ha
    have hne : a ≠ a + 1 := by bv_omega
    exact ⟨(Function.update_of_ne hne ..).trans (Function.update_self ..), Function.update_self ..⟩
  rest x hx hx' := by
    have hne : x ≠ ptr + 1 := by
      rintro rfl
      exact hx' (BitVec.add_sub_cancel ptr 1)
    exact (Function.update_of_ne hne ..).trans (Function.update_of_ne hx ..)

/-- From the offset `off` on, where the code is still the original one. -/
theorem rewriteLoop_spec (hd : Disassembles disasm) (syscallAddr : Word) (hcode : code.toNat + size ≤ 2 ^ 48) {fuel off : ℕ} {p : Process}
    (hfuel : size - off < fuel) (hbuf : ∀ i, off ≤ i → i < size → p.mem (code + .ofNat 64 i) = buf i)
    (hprot : ∀ i < size, p.prot (code + .ofNat 64 i) &&& protWrite ≠ 0) :
    ∃ p', rewriteLoop disasm syscallAddr code size fuel off p = some p' ∧ p'.prot = p.prot ∧
      RewrittenTo (AtSites code (sites disasm syscallAddr code size buf fuel off)) p.mem p'.mem ∧
      ∀ a, isBitmapSet p'.bm a = true ↔
        isBitmapSet p.bm a = true ∨ AtSites code (sites disasm syscallAddr code size buf fuel off) a := by
  induction fuel generalizing off p with
  | zero => omega
  | succ fuel ih =>
    rw [rewriteLoop, sites, starts]
    by_cases hlt : off < size
    · have hdis : disasm (fun i => p.mem (code + .ofNat 64 i)) size off = disasm buf size off :=
        hd.forward _ _ size off hbuf
      have hpos := hd.pos buf size off hlt
      rw [if_pos hlt, if_pos hlt, hdis]
      dsimp only
      by_cases hsite : isSite disasm syscallAddr code size buf off
      · have hcall := isSite_iff.mp hsite
        obtain ⟨htwo, hle⟩ := hd.two buf size off hlt hcall.1
        have hfold := foldlM_doRewrite (p := p) hcall.2 (hprot off hlt)
          (by rw [show code + .ofNat 64 off + 1 = code + .ofNat 64 (off + 1) by bv_omega]; exact hprot _ (by omega))
          (by bv_omega) (disasm buf size off).1
        rw [if_pos hcall.1] at hfold
        have hone := rewrittenTo_replaced p (code + .ofNat 64 off)
        have hlate : ∀ o ∈ sites disasm syscallAddr code size buf fuel (off + 2), off + 2 ≤ o ∧ o < 2 ^ 48 := by
          intro o ho
          have hbounds := sites_bounds hd ho
          omega
        rw [hfold, List.filter_cons_of_pos hsite, htwo, ← sites, Option.bind_eq_bind, Option.bind_some]
        obtain ⟨p', hrun, hprot', hmem, hbm⟩ := @ih (off + 2) (p.replaced (code + .ofNat 64 off)) (by omega)
          (fun i hi hi' => by
            rw [hone.rest _ (by bv_omega) (by bv_omega)]
            exact hbuf i (by omega) hi') hprot
        refine ⟨p', hrun, hprot', (hone.trans hmem ?_).of_iff fun a => atSites_cons.symm, fun a => ?_⟩
        · rintro a rfl
          refine ⟨?_, ?_, ?_⟩ <;> rintro ⟨o, ho, heq⟩ <;> have hbounds := hlate o ho <;> bv_omega
        · rw [hbm, atSites_cons, Process.replaced, isBitmapSet_bitmapSet]
          simp [or_assoc, or_left_comm]
      · have hfold : (disasm buf size off).1.foldlM (doRewrite syscallAddr code off) p = some p :=
          foldlM_doRewrite_other _ (by simpa [isSite, imp_iff_not_or] using hsite)
        rw [hfold, List.filter_cons_of_neg hsite, Option.bind_eq_bind, Option.bind_some]
        exact ih (by omega) (fun i hi hi' => hbuf i (by omega) hi') hprot
    · rw [if_neg hlt, if_neg hlt]
      refine ⟨p, rfl, rfl, ⟨?_, ?_⟩, ?_⟩
      all_goals simp [AtSites]

/-- The addresses of the system calls in a piece of code. -/
def SystemCalls (disasm : Disasm) (syscallAddr : Word) (m : Mem) (code : Word) (size : ℕ) : Word → Prop :=
  AtSites code (sites disasm syscallAddr code size (fun i => m (code + .ofNat 64 i)) (size + 1) 0)

theorem SystemCalls.bounds (hd : Disassembles disasm) {m : Mem} {a : Word} (hcode : code.toNat + size ≤ 2 ^ 48)
    (h : SystemCalls disasm syscallAddr m code size a) : code.toNat ≤ a.toNat ∧ a.toNat + 2 ≤ code.toNat + size := by
  obtain ⟨o, ho, rfl⟩ := h
  have hbounds := sites_bounds hd ho
  bv_omega

/-- A piece of code after the rewriting. -/
theorem disassembleAndRewrite_spec (hd : Disassembles disasm) (syscallAddr : Word) (hcode : code.toNat + size ≤ 2 ^ 48) (p : Process)
    (memProt : ℕ) :
    ∃ p', disassembleAndRewrite disasm syscallAddr p code size memProt = some p' ∧
      p'.prot = (mprotect p code size memProt).prot ∧
      RewrittenTo (SystemCalls disasm syscallAddr p.mem code size) p.mem p'.mem ∧
      ∀ a, isBitmapSet p'.bm a = true ↔
        isBitmapSet p.bm a = true ∨ SystemCalls disasm syscallAddr p.mem code size a := by
  have hwrite (i : ℕ) (hi : i < size) :
      (mprotect p code size (protWrite ||| protRead ||| protExec)).prot (code + .ofNat 64 i) &&& protWrite ≠ 0 := by
    have hoff : (code + .ofNat 64 i - code).toNat < size := by bv_omega
    rw [mprotect]
    simp only [if_pos hoff]
    decide
  obtain ⟨p', hrun, hprot, hmem, hbm⟩ := rewriteLoop_spec (p := mprotect p code size (protWrite ||| protRead ||| protExec))
    hd syscallAddr hcode (show size - 0 < size + 1 by omega) (fun i _ _ => rfl) hwrite
  refine ⟨mprotect p' code size memProt, ?_, ?_, hmem, hbm⟩
  · rw [disassembleAndRewrite, hrun]
    rfl
  · funext a
    simp only [mprotect, hprot]
    split_ifs <;> rfl

end Loop

end Pthabt.Zpoline
