import Mathlib.Data.List.TakeWhile
import Pthabt.Hlpatch.RightInsn
import Pthabt.Zpoline.Rewrite

/-! `rewrite_code` (`zpoline.c`): the lines of `/proc/self/maps` name the pieces of executable memory that
are rewritten. -/

namespace Pthabt.Zpoline

open Lib Memory Hlpatch Regex

/-- `isspace` -/
def isSpace (c : Char) : Bool := c = ' ' || '\t' ≤ c && c ≤ '\r'

/-- The digits that `strtol(s, NULL, 16)` reads after the sign. -/
def hexDigits : Text → ℕ
  | '0' :: 'x' :: c :: w =>
    if (hexDigit c).isSome then hexRun (c :: w) else 0
  | '0' :: 'X' :: c :: w =>
    if (hexDigit c).isSome then hexRun (c :: w) else 0
  | w => hexRun w
where
  hexRun (w : Text) : ℕ := (w.takeWhile fun c => (hexDigit c).isSome).foldl (fun n c => 16 * n + (hexDigit c).getD 0) 0

/-- `strtol(s, NULL, 16)` -/
def strtol16 (s : Text) : ℤ :=
  match s.dropWhile isSpace with
  | '-' :: w => max (-2 ^ 63) (-(hexDigits w : ℤ))
  | '+' :: w => min (2 ^ 63 - 1) (hexDigits w : ℤ)
  | w => min (2 ^ 63 - 1) (hexDigits w : ℤ)

/-- The words that `strtok` with `" "` finds. -/
def strtok (buf : Text) : List Text := (buf.splitOn ' ').filter (· ≠ [])

def memProt (c : Text) : ℕ :=
  c.foldl (fun prot x =>
    let prot := if x = 'r' then prot ||| protRead else prot
    let prot := if x = 'w' then prot ||| protWrite else prot
    if x = 'x' then prot ||| protExec else prot) 0

/-- We do not touch stack and vsyscall memory. -/
def Special (buf : Text) : Prop := "stack".toList <:+: buf ∨ "vsyscall".toList <:+: buf

instance (buf : Text) : Decidable (Special buf) := inferInstanceAs (Decidable (_ ∨ _))

/-- The call of `disassemble_and_rewrite` for a line. -/
def mapsCall (buf : Text) : Option (Word × ℕ × ℕ) :=
  if Special buf then none
  else
    match strtok buf with
    | addr :: c :: _ =>
      let addr := addr.take 64
      if memProt c &&& protExec ≠ 0 then
        let from' := strtol16 (addr.takeWhile (· ≠ '-'))
        -- this is trampoline code
        if from' = 0 then none
        else
          let to' := strtol16 ((addr.dropWhile (· ≠ '-')).drop 1)
          some (.ofInt 64 from', ((to' - from') % 2 ^ 64).toNat, memProt c)
      else none
    | _ => none

/-- What `fgets` reads with room for `n` characters, and what is left. -/
def fgets : ℕ → Text → Text × Text
  | 0, text => ([], text)
  | _ + 1, [] => ([], [])
  | n + 1, c :: text =>
    if c = '\n' then ([c], text)
    else
      let r := fgets n text
      (c :: r.1, r.2)

/-- The buffers of the loop. -/
def readLines : ℕ → Text → List Text
  | 0, _ => []
  | fuel + 1, text => if text = [] then [] else (fgets 4095 text).1 :: readLines fuel (fgets 4095 text).2

def rewriteLine (disasm : Disasm) (syscallAddr : Word) (p : Process) (buf : Text) : Option Process :=
  match mapsCall buf with
  | some (code, codeSize, prot) => disassembleAndRewrite disasm syscallAddr p code codeSize prot
  | none => some p

def rewriteCode (disasm : Disasm) (syscallAddr : Word) (p : Process) (maps : Text) : Option Process :=
  (readLines maps.length maps).foldlM (rewriteLine disasm syscallAddr) p

/-! ### The lines of the kernel -/

/-- A mapping, with the rest of its line. -/
structure Mapping where
  start : ℕ
  stop : ℕ
  read : Bool
  write : Bool
  exec : Bool
  shared : Bool
  rest : Text

namespace Mapping

def perms (v : Mapping) : Text :=
  [if v.read then 'r' else '-', if v.write then 'w' else '-', if v.exec then 'x' else '-', if v.shared then 's' else 'p']

def hex (n : ℕ) : Text := (Nat.toDigits 16 n).leftpad 8 '0'

def line (v : Mapping) : Text := hex v.start ++ '-' :: hex v.stop ++ ' ' :: v.perms ++ ' ' :: v.rest ++ ['\n']

end Mapping

theorem forall_mem_hex {P : Char → Prop} (h : ∀ n < 16, P n.digitChar) (n : ℕ) : ∀ c ∈ Mapping.hex n, P c := by
  intro c hc
  rcases List.mem_append.mp hc with hc | hc
  · rw [List.eq_of_mem_replicate hc]
    exact h 0 (by omega)
  · exact forall_mem_toDigits h n c hc

theorem foldl_toDigits (n : ℕ) :
    (Nat.toDigits 16 n).foldl (fun n c => 16 * n + (hexDigit c).getD 0) 0 = n := by
  induction n using Nat.strong_induction_on with
  | _ n ih =>
    rw [Nat.toDigits_eq_if (by decide)]
    split_ifs with h
    · simp [hexDigit_digitChar h]
    · rw [List.foldl_append, ih _ (Nat.div_lt_self (by omega) (by decide)), List.foldl_cons, List.foldl_nil,
        hexDigit_digitChar (Nat.mod_lt n (by decide))]
      exact Nat.div_add_mod n 16

theorem foldl_zeros (k : ℕ) : (List.replicate k '0').foldl (fun n c => 16 * n + (hexDigit c).getD 0) 0 = 0 := by
  induction k with
  | zero => rfl
  | succ k ih =>
    rw [List.replicate_succ, List.foldl_cons]
    exact ih

/-- The number that `strtol` reads is the one that the kernel printed. -/
theorem strtol16_hex {n : ℕ} (hn : n < 2 ^ 63) : strtol16 (Mapping.hex n) = n := by
  have hall : ∀ c ∈ Mapping.hex n, (hexDigit c).isSome = true := forall_mem_hex (by decide) n
  have hrun : hexDigits.hexRun (Mapping.hex n) = n := by
    rw [hexDigits.hexRun, List.takeWhile_eq_self_iff.mpr hall, Mapping.hex, List.leftpad, List.foldl_append,
      foldl_zeros, foldl_toDigits]
  have hdigits : hexDigits (Mapping.hex n) = n := by
    unfold hexDigits
    split
    · exact absurd (hall 'x' (by simp [*])) (by decide)
    · exact absurd (hall 'X' (by simp [*])) (by decide)
    · exact hrun
  have hspace : (Mapping.hex n).dropWhile isSpace = Mapping.hex n := by
    have hnot : ∀ c ∈ Mapping.hex n, isSpace c = false := forall_mem_hex (by decide) n
    cases h : Mapping.hex n with
    | nil => rfl
    | cons c w => exact List.dropWhile_cons_of_neg (by rw [hnot c (by rw [h]; exact List.mem_cons_self)]; decide)
  unfold strtol16
  rw [hspace]
  split
  · exact absurd (hall '-' (by simp [*])) (by decide)
  · exact absurd (hall '+' (by simp [*])) (by decide)
  · rw [hdigits]
    omega

theorem length_hex {n : ℕ} (hn : n < 2 ^ 63) : (Mapping.hex n).length ≤ 16 := by
  have hdigits : (Nat.toDigits 16 n).length ≤ 16 :=
    (Nat.length_toDigits_le_iff (by decide) (by decide)).mpr (hn.trans (by decide))
  rw [Mapping.hex, List.leftpad, List.length_append, List.length_replicate]
  omega

namespace Mapping

def prot (v : Mapping) : ℕ :=
  (if v.read then protRead else 0) ||| (if v.write then protWrite else 0) ||| (if v.exec then protExec else 0)

theorem memProt_perms (v : Mapping) : memProt v.perms = v.prot := by
  unfold memProt perms prot
  cases v.read <;> cases v.write <;> cases v.exec <;> cases v.shared <;> rfl

theorem prot_exec (v : Mapping) : v.prot &&& protExec ≠ 0 ↔ v.exec := by
  unfold prot
  cases v.read <;> cases v.write <;> cases v.exec <;> decide

/-- Whether `rewrite_code` leaves the mapping alone. -/
def Skipped (v : Mapping) : Prop := Special v.line ∨ v.exec = false ∨ v.start = 0

instance (v : Mapping) : Decidable v.Skipped := inferInstanceAs (Decidable (_ ∨ _))

/-- A line of the kernel fits into the buffer, and only the special mappings are at high addresses. -/
structure Listed (v : Mapping) : Prop where
  le : v.start ≤ v.stop
  top : ¬ Special v.line → v.stop ≤ 2 ^ 48
  rest : '\n' ∉ v.rest
  fits : v.line.length ≤ 4095

theorem strtok_line (v : Mapping) :
    ∃ l, strtok v.line = (hex v.start ++ '-' :: hex v.stop) :: v.perms :: l := by
  have haddr : ' ' ∉ hex v.start ++ '-' :: hex v.stop := by
    have hblank (n : ℕ) : ' ' ∉ hex n := fun h => absurd (forall_mem_hex (P := (· ≠ ' ')) (by decide) n _ h) (by simp)
    simp [hblank]
  have hperms : ' ' ∉ v.perms := by
    unfold perms
    cases v.read <;> cases v.write <;> cases v.exec <;> cases v.shared <;> decide
  have hline : v.line = (hex v.start ++ '-' :: hex v.stop) ++ ' ' :: (v.perms ++ ' ' :: (v.rest ++ ['\n'])) := by
    simp [line]
  refine ⟨((v.rest ++ ['\n']).splitOn ' ').filter (· ≠ []), ?_⟩
  rw [strtok, hline, List.splitOn_append_cons_self_of_not_mem haddr, List.splitOn_append_cons_self_of_not_mem hperms]
  simp [perms]

end Mapping

/-- The call for a line of the kernel. -/
theorem mapsCall_line {v : Mapping} (h : v.Listed) :
    mapsCall v.line = if v.Skipped then none else some (.ofNat 64 v.start, v.stop - v.start, v.prot) := by
  obtain ⟨l, hl⟩ := v.strtok_line
  by_cases hspecial : Special v.line
  · rw [mapsCall, if_pos hspecial, if_pos (show v.Skipped from .inl hspecial)]
  have htop := h.top hspecial
  have hle := h.le
  have hlen : (Mapping.hex v.start ++ '-' :: Mapping.hex v.stop).length ≤ 64 := by
    have hs := length_hex (n := v.start) (by omega)
    have ht := length_hex (n := v.stop) (by omega)
    rw [List.length_append, List.length_cons]
    omega
  have hdash : ∀ c ∈ Mapping.hex v.start, decide (c ≠ '-') = true := forall_mem_hex (by decide) v.start
  have htake : ('-' :: Mapping.hex v.stop).takeWhile (fun c => decide (c ≠ '-')) = [] := rfl
  have hdrop : ('-' :: Mapping.hex v.stop).dropWhile (fun c => decide (c ≠ '-')) = '-' :: Mapping.hex v.stop := rfl
  rw [mapsCall, if_neg hspecial, hl]
  dsimp only
  rw [List.take_of_length_le hlen, List.takeWhile_append_of_pos hdash, List.dropWhile_append_of_pos hdash, htake, hdrop,
    List.append_nil, List.drop_one, List.tail_cons, strtol16_hex (by omega), strtol16_hex (by omega), v.memProt_perms]
  by_cases hexec : v.exec
  · rw [if_pos (v.prot_exec.mpr hexec)]
    by_cases h0 : v.start = 0
    · rw [if_pos (by exact_mod_cast h0), if_pos (show v.Skipped from .inr (.inr h0))]
    · have hno : ¬ v.Skipped := by simp [Mapping.Skipped, hspecial, hexec, h0]
      have hsize : (((v.stop : ℤ) - v.start) % 2 ^ 64).toNat = v.stop - v.start := by omega
      rw [if_neg (by exact_mod_cast h0), if_neg hno, hsize, BitVec.ofInt_natCast]
  · have hskip : v.Skipped := .inr (.inl (by simpa using hexec))
    rw [if_neg fun h => hexec (v.prot_exec.mp h), if_pos hskip]

theorem fgets_line {w : Text} (hw : '\n' ∉ w) {n : ℕ} (hn : w.length < n) (text : Text) :
    fgets n (w ++ '\n' :: text) = (w ++ ['\n'], text) := by
  induction w generalizing n with
  | nil =>
    obtain ⟨n, rfl⟩ := Nat.exists_eq_succ_of_ne_zero (Nat.ne_of_gt hn)
    simp [fgets]
  | cons c w ih =>
    obtain ⟨n, rfl⟩ := Nat.exists_eq_succ_of_ne_zero (Nat.ne_of_gt (Nat.zero_lt_of_lt hn))
    simp only [List.mem_cons, not_or] at hw
    rw [List.cons_append, fgets, if_neg (Ne.symm hw.1), ih hw.2 (Nat.lt_of_succ_lt_succ hn)]
    rfl

/-- The lines are read one by one. -/
theorem readLines_flatMap {maps : List Mapping} (h : ∀ v ∈ maps, v.Listed) {fuel : ℕ} (hfuel : maps.length ≤ fuel) :
    readLines fuel (maps.flatMap Mapping.line) = maps.map Mapping.line := by
  induction maps generalizing fuel with
  | nil => cases fuel <;> rfl
  | cons v maps ih =>
    obtain ⟨fuel, rfl⟩ := Nat.exists_eq_succ_of_ne_zero (Nat.ne_of_gt (Nat.zero_lt_of_lt hfuel))
    obtain ⟨hv, hmaps⟩ := List.forall_mem_cons.mp h
    obtain ⟨w, hw, hnl⟩ : ∃ w : Text, v.line = w ++ ['\n'] ∧ '\n' ∉ w := by
      refine ⟨_, rfl, ?_⟩
      have hhex (n : ℕ) : '\n' ∉ Mapping.hex n := fun h =>
        absurd (forall_mem_hex (P := (· ≠ '\n')) (by decide) n _ h) (by simp)
      have hperms : '\n' ∉ v.perms := by
        unfold Mapping.perms
        cases v.read <;> cases v.write <;> cases v.exec <;> cases v.shared <;> decide
      simp [hhex, hperms, hv.rest]
    have hlen : w.length < 4095 := by
      have hfits := hv.fits
      rw [hw, List.length_append, List.length_singleton] at hfits
      omega
    have hread : fgets 4095 (v.line ++ maps.flatMap Mapping.line) = (v.line, maps.flatMap Mapping.line) := by
      rw [hw, List.append_assoc]
      exact fgets_line hnl hlen _
    rw [List.flatMap_cons, readLines, if_neg, hread, ih hmaps (Nat.le_of_succ_le_succ hfuel), List.map_cons]
    simp [hw]

/-! ### All the code -/

variable {disasm : Disasm} {syscallAddr : Word}

/-- The system calls in a mapping. -/
def Mapping.Calls (disasm : Disasm) (syscallAddr : Word) (m : Mem) (v : Mapping) (a : Word) : Prop :=
  ¬ v.Skipped ∧ SystemCalls disasm syscallAddr m (.ofNat 64 v.start) (v.stop - v.start) a

/-- The addresses of a mapping. -/
def Mapping.Has (v : Mapping) (a : Word) : Prop := v.start ≤ a.toNat ∧ a.toNat < v.stop

theorem Mapping.Calls.has (hd : Disassembles disasm) {v : Mapping} (hv : v.Listed) {m : Mem} {a : Word}
    (h : v.Calls disasm syscallAddr m a) : v.start ≤ a.toNat ∧ a.toNat + 2 ≤ v.stop := by
  have htop := hv.top fun hs => h.1 (.inl hs)
  have hle := hv.le
  have hstart : (BitVec.ofNat 64 v.start).toNat = v.start := by
    rw [BitVec.toNat_ofNat, Nat.mod_eq_of_lt (by omega)]
  have hbounds := h.2.bounds hd (by omega)
  omega

theorem Mapping.calls_congr (hd : Disassembles disasm) {v : Mapping} (hv : v.Listed) {m m' : Mem}
    (h : ∀ a, v.Has a → m a = m' a) (a : Word) : v.Calls disasm syscallAddr m a ↔ v.Calls disasm syscallAddr m' a := by
  unfold Mapping.Calls
  refine and_congr_right fun hskip => ?_
  have htop := hv.top fun hs => hskip (.inl hs)
  unfold SystemCalls
  rw [sites_congr hd fun i hi => h _ ?_]
  have hle := hv.le
  constructor <;> bv_omega

/-- The protection is what it was. -/
theorem mprotect_prot {v : Mapping} (hv : v.Listed) (htop : v.stop ≤ 2 ^ 48) {p : Process}
    (hprot : ∀ a, v.Has a → p.prot a = v.prot) :
    (mprotect p (.ofNat 64 v.start) (v.stop - v.start) v.prot).prot = p.prot := by
  have hle := hv.le
  funext a
  simp only [mprotect]
  split
  · rename_i hlt
    exact (hprot a ⟨by bv_omega, by bv_omega⟩).symm
  · rfl

/-- All mappings are rewritten. -/
theorem foldlM_rewrite (hd : Disassembles disasm) (syscallAddr : Word) {maps : List Mapping} (hmaps : ∀ v ∈ maps, v.Listed)
    (hsorted : maps.Pairwise fun v w => v.stop ≤ w.start) {p : Process}
    (hprot : ∀ v ∈ maps, ∀ a, v.Has a → p.prot a = v.prot) :
    ∃ p', (maps.map Mapping.line).foldlM (rewriteLine disasm syscallAddr) p = some p' ∧
      p'.prot = p.prot ∧ RewrittenTo (fun a => ∃ v ∈ maps, v.Calls disasm syscallAddr p.mem a) p.mem p'.mem ∧
      ∀ a, isBitmapSet p'.bm a = true ↔
        isBitmapSet p.bm a = true ∨ ∃ v ∈ maps, v.Calls disasm syscallAddr p.mem a := by
  induction maps generalizing p with
  | nil => exact ⟨p, rfl, rfl, (RewrittenTo.refl p.mem).of_iff (by simp), by simp⟩
  | cons v maps ih =>
    obtain ⟨hv, hmaps⟩ := List.forall_mem_cons.mp hmaps
    obtain ⟨hfirst, hsorted⟩ := List.pairwise_cons.mp hsorted
    rw [List.map_cons, List.foldlM_cons, rewriteLine, mapsCall_line hv]
    by_cases hskip : v.Skipped
    · rw [if_pos hskip]
      obtain ⟨p', hrun, hprot', hmem, hbm⟩ := ih hmaps hsorted fun w hw => hprot w (List.mem_cons_of_mem v hw)
      have hno (a : Word) : ¬ v.Calls disasm syscallAddr p.mem a := fun h => h.1 hskip
      exact ⟨p', hrun, hprot', hmem.of_iff (by simp [hno]), by simp [hbm, hno]⟩
    · rw [if_neg hskip]
      have htop := hv.top fun hs => hskip (.inl hs)
      have hle := hv.le
      have hcode : (BitVec.ofNat 64 v.start).toNat + (v.stop - v.start) ≤ 2 ^ 48 := by
        rw [BitVec.toNat_ofNat, Nat.mod_eq_of_lt (by omega)]
        omega
      obtain ⟨p₁, hrun, hprot₁, hmem, hbm⟩ := disassembleAndRewrite_spec hd syscallAddr hcode p v.prot
      rw [mprotect_prot hv htop (hprot v List.mem_cons_self)] at hprot₁
      obtain ⟨p', hrun', hprot', hmem', hbm'⟩ := ih hmaps hsorted (p := p₁) fun w hw => by
        rw [hprot₁]
        exact hprot w (List.mem_cons_of_mem v hw)
      have hcalls : SystemCalls disasm syscallAddr p.mem (.ofNat 64 v.start) (v.stop - v.start) =
          v.Calls disasm syscallAddr p.mem := by
        funext a
        exact propext (iff_and_self.mpr fun _ => hskip)
      rw [hcalls] at hmem hbm
      -- the later mappings are as they were
      have hlater (a : Word) : (∃ w ∈ maps, w.Calls disasm syscallAddr p₁.mem a) ↔
          ∃ w ∈ maps, w.Calls disasm syscallAddr p.mem a := by
        refine exists_congr fun w => and_congr_right fun hw => w.calls_congr hd (hmaps w hw) (fun a ha => ?_) a
        have hlow := hfirst w hw
        exact hmem.rest a (fun hc => absurd (hc.has hd hv).2 (by have := ha.1; omega))
          fun hc => absurd (hc.has hd hv).2 (by have := ha.1; bv_omega)
      refine ⟨p', ?_, hprot'.trans hprot₁, (hmem.trans hmem' ?_).of_iff ?_, ?_⟩
      · simp only [Option.bind_eq_bind, hrun, Option.bind_some]
        exact hrun'
      · intro a ha
        have hbounds := ha.has hd hv
        have hwhere (b : Word) (hb : ∃ w ∈ maps, w.Calls disasm syscallAddr p₁.mem b) :
            v.stop ≤ b.toNat ∧ b.toNat < 2 ^ 48 := by
          obtain ⟨w, hw, hb⟩ := hb
          have hlow := hfirst w hw
          have htopw := (hmaps w hw).top fun hs => hb.1 (.inl hs)
          have hin := hb.has hd (hmaps w hw)
          omega
        refine ⟨?_, ?_, ?_⟩ <;> intro hb <;> have hin := hwhere _ hb <;> bv_omega
      · intro a
        rw [hlater]
        simp
      · intro a
        rw [hbm', hlater, hbm, List.exists_mem_cons_iff, or_assoc]

theorem length_le_flatMap (maps : List Mapping) : maps.length ≤ (maps.flatMap Mapping.line).length := by
  induction maps with
  | nil => exact Nat.le_refl 0
  | cons v maps ih =>
    have hline : 0 < v.line.length := by simp [Mapping.line]
    rw [List.flatMap_cons, List.length_append, List.length_cons]
    omega

/-- A disassembler of two instructions. -/
def smallDisasm : Disasm := fun buf size off =>
  if off + 2 ≤ size ∧ buf off = 0xff ∧ buf (off + 1) = 0xd0 then (["call".toList], 2)
  else if off + 2 ≤ size ∧ buf off = 0x0f ∧ buf (off + 1) = 0x05 then (["syscall".toList], 2)
  else ([], 1)

theorem smallDisasm_disassembles : Disassembles smallDisasm where
  pos buf size off _ := by
    unfold smallDisasm
    split_ifs <;> decide
  forward buf buf' size off h := by
    by_cases hle : off + 2 ≤ size
    · simp only [smallDisasm, h off (by omega) (by omega), h (off + 1) (by omega) (by omega)]
    · simp only [smallDisasm, hle, false_and]
  two buf size off _ h := by
    unfold smallDisasm at h ⊢
    split_ifs at h ⊢
    · simp [isSystemCall] at h
    · exact ⟨rfl, by omega⟩
    · simp at h

/-- A process with one system call. -/
def smallProcess : Process where
  mem a := if a = 0x5000 then 0x0f else if a = 0x5001 then 0x05 else 0
  prot _ := 5
  bm _ := 0

def smallMapping : Mapping := ⟨0x5000, 0x6000, true, false, true, false, "0 0:0 0".toList⟩

theorem smallMapping_listed : ∀ v ∈ [smallMapping], v.Listed := by
  simp only [List.mem_singleton, forall_eq]
  exact ⟨by decide, fun _ => by decide, by decide, by decide⟩

theorem smallProcess_prot : ∀ v ∈ [smallMapping], ∀ a, v.Has a → smallProcess.prot a = v.prot := by
  simp only [List.mem_singleton, forall_eq]
  intro a _
  change 5 = smallMapping.prot
  decide

end Pthabt.Zpoline
