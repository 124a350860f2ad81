import Mathlib.Data.List.Infix
import Pthabt.Hlpatch.Patch

/-! What the loop of `patch` does with a listing: what its three patterns find in a line, the line from
which on it looks for the instruction, and the calls it makes from there. -/

namespace Pthabt.Hlpatch

open Lib Regex

/-- The text of a load `mov (%reg),` up to the comma. -/
def LoadText (reg text : Text) : Prop :=
  ∃ blanks : Text, text = "mov".toList ++ blanks ++ "(%".toList ++ reg ++ "),".toList ∧
    CharSet.space.Run 1 blanks ∧ CharSet.word.Run 1 reg

/-- The line has a load from the address in `reg`. -/
def Loads (reg line : Text) : Prop := ∃ text, LoadText reg text ∧ text <:+: line

/-- The line has the digits of the address and a colon, at any place. -/
def Shows (insnAddr : ℤ) (line : Text) : Prop := formatHex insnAddr ++ [':'] <:+: line

instance (insnAddr : ℤ) (line : Text) : Decidable (Shows insnAddr line) :=
  inferInstanceAs (Decidable (_ <:+: _))

/-! ### The patterns -/

def insnRegex (insnAddr : ℤ) : Regex :=
  concat [.group (some 1) (concat ((formatHex insnAddr).map lit)), lit ':']

def opRegex : Regex :=
  concat ("mov".toList.map lit ++ [.rep false 1 none (.set .space)] ++ "(%".toList.map lit ++
    [.group (some 1) (concat [.rep false 1 none (.set .word)])] ++ "),".toList.map lit)

theorem compile_op : compile opPattern = some opRegex := by decide +kernel

/-- What holds of every digit holds of the digits of a number. -/
theorem forall_mem_toDigits {P : Char → Prop} (h : ∀ n < 16, P n.digitChar) (n : ℕ) :
    ∀ c ∈ Nat.toDigits 16 n, P c := by
  induction n using Nat.strong_induction_on with
  | _ n ih =>
    rw [Nat.toDigits_eq_if (by decide)]
    split_ifs with hn
    · simpa using h n hn
    · rw [List.forall_mem_append]
      refine ⟨ih _ (Nat.div_lt_self (by omega) (by decide)), ?_⟩
      simpa using h _ (Nat.mod_lt n (by decide))

theorem formatHex_plain (z : ℤ) : ∀ c ∈ formatHex z, Plain c := by
  have hdigits := forall_mem_toDigits (P := Plain) (by decide) z.natAbs
  unfold formatHex
  split_ifs
  · exact List.forall_mem_cons.mpr ⟨by decide, hdigits⟩
  · exact hdigits

/-- The pattern of a name without special characters. -/
def funcRegex (func : Text) : Regex :=
  .seq .start (concat ([.group (some 1) (concat [.rep false 1 none (.set .word)])] ++
    " <".toList.map lit ++ [.group (some 2) (concat (func.map lit))] ++ "(".toList.map lit ++
    [.rep false 1 none (.set .any)] ++ ")>".toList.map lit))

theorem compile_func {func : Text} (hf : ∀ c ∈ func, Plain c) :
    compile (funcPattern func) = some (funcRegex func) := by
  have hsplit : funcPattern func =
      "^(\\w+) <".toList ++ '(' :: (func ++ ')' :: "\\(.+\\)>".toList) := by
    unfold funcPattern
    simp only [String.reduceToList, List.cons_append, List.nil_append]
  have hhead : "^(\\w+) <".toList.foldlM Reading.step .new =
      some ⟨.plain, ⟨none, [], [lit '<', lit ' ',
        .group (some 1) (concat [.rep false 1 none (.set .word)]), .start]⟩, [], 1⟩ := rfl
  have htail : ∀ p : Reading, p.mode = .plain → "\\(.+\\)>".toList.foldlM Reading.step p =
      some (p.setItems .plain
        ([lit '>', lit ')', .rep false 1 none (.set .any), lit '('] ++ p.top.items)) := by
    rintro ⟨_, _, _, _⟩ rfl
    rfl
  rw [compile, hsplit, List.foldlM_append, hhead, Option.bind_eq_bind, Option.bind_some,
    foldlM_group rfl hf, htail _ rfl]
  rfl

/-- The group of a name without special characters is what stands before it at the start of the line. -/
theorem search_func_some {func line : Text} {m : State} (h : search (funcRegex func) line = some m) :
    ∃ w, m.group 1 = some w ∧ CharSet.word.Run 1 w ∧ w ++ " <".toList <+: line := by
  have hmatch := (((((matches_nil.appendGroup (matches_rep .word false 1).item 1).appendLit
    " <".toList).appendGroup (matches_lit func) 2).appendLit "(".toList).appendRep .any false 1).appendLit
    ")>".toList
  obtain ⟨text, ⟨_, ⟨_, x, ⟨_, ⟨_, _, _, ⟨_, ⟨_, _, w, ⟨rfl, rfl⟩, hw, hv, rfl⟩, rfl⟩, rfl, rfl, hg⟩,
    rfl⟩, -, rfl⟩, rfl⟩, hpre⟩ := hmatch.of_search_start h
  refine ⟨w, ?_, hw, ?_⟩
  · rw [State.group, hg]
    rfl
  · simp only [hv, List.nil_append, List.append_assoc] at hpre ⊢
    exact (List.prefix_append_right_inj w).mpr (List.prefix_append _ _) |>.trans hpre

theorem compile_insn (z : ℤ) : compile (insnPattern z) = some (insnRegex z) := by
  rw [compile, insnPattern]
  change (('(' :: (formatHex z ++ ')' :: [':'])).foldlM Reading.step .new).bind Reading.finish = _
  rw [foldlM_group rfl (formatHex_plain z)]
  rfl

theorem search_insn {z : ℤ} {line : Text} : (search (insnRegex z) line).isSome ↔ Shows z line := by
  have hmatch := (matches_nil.appendGroup (matches_lit (formatHex z)) 1).appendLit [':']
  refine hmatch.search_isSome.trans ⟨?_, fun h => ?_⟩
  · rintro ⟨_, _, ⟨_, ⟨_, _, _, ⟨rfl, rfl⟩, rfl, rfl, rfl⟩, rfl⟩, hin⟩
    exact hin
  · exact ⟨_, _, ⟨_, ⟨_, _, _, ⟨rfl, rfl⟩, rfl, rfl, rfl⟩, rfl⟩, h⟩

theorem matches_op : Matches opRegex fun text g => ∃ reg, LoadText reg text ∧ g = [(1, reg)] := by
  have hmatch := ((((matches_lit "mov".toList).appendRep .space false 1).appendLit
    "(%".toList).appendGroup (matches_rep .word false 1).item 1).appendLit "),".toList
  refine hmatch.congr fun text g => ⟨?_, ?_⟩
  · rintro ⟨_, ⟨_, _, reg, ⟨_, ⟨_, blanks, ⟨rfl, rfl⟩, hb, rfl⟩, rfl⟩, hr, rfl, rfl⟩, rfl⟩
    exact ⟨reg, ⟨blanks, rfl, hb, hr⟩, rfl⟩
  · rintro ⟨reg, ⟨blanks, rfl, hb, hr⟩, rfl⟩
    exact ⟨_, ⟨_, _, reg, ⟨_, ⟨_, blanks, ⟨rfl, rfl⟩, hb, rfl⟩, rfl⟩, hr, rfl, rfl⟩, rfl⟩

theorem search_op_some {line : Text} {m : State} (h : search opRegex line = some m) :
    ∃ reg, m.group 1 = some reg ∧ Loads reg line := by
  obtain ⟨text, ⟨reg, htext, hg⟩, hin⟩ := matches_op.of_search h
  refine ⟨reg, ?_, text, htext, hin⟩
  rw [State.group, hg]
  rfl

theorem search_op_isSome {reg line : Text} (h : Loads reg line) : (search opRegex line).isSome := by
  obtain ⟨text, htext, hin⟩ := h
  exact matches_op.search_isSome.mpr ⟨text, _, ⟨reg, htext, rfl⟩, hin⟩

/-! ### The scan -/

/-- What `patch` looks for and where: the head of `below` is the first line with the pattern of the
function, and the number there and the offset make `insnAddr`. -/
inductive Aims (targets : List Text) : List Text → ℤ → List Text → Prop
  | intro {patternFunc : Regex} (above : List Text) {below : List Text} {line : Text} {m : State}
    {funcAddr off : ℤ}
    (hfunc : compile (funcPattern (targets.headD [])) = some patternFunc)
    (habove : ∀ k ∈ above, search patternFunc k = none)
    (hline : search patternFunc line = some m)
    (haddr : (m.group 1).bind pyInt = some funcAddr)
    (hoff : targets[1]?.bind pyInt = some off) :
    Aims targets (above ++ line :: below) (funcAddr + off) (line :: below)

/-- The call for a line, when the scan looks for `insnAddr`. -/
def callAt (insnAddr : ℤ) (line : Text) : Option Call :=
  if Shows insnAddr line then
    (search opRegex line).map fun m => ⟨line, insnAddr, (m.group 1).getD "None".toList⟩
  else none

theorem callAt_some {z : ℤ} {line : Text} {c : Call} (h : callAt z line = some c) :
    Shows z line ∧ c.line = line ∧ c.insnAddr = z ∧ Loads c.reg line := by
  unfold callAt at h
  split_ifs at h with hs
  obtain ⟨m, hm, rfl⟩ := Option.map_eq_some_iff.mp h
  obtain ⟨reg, hreg, hload⟩ := search_op_some hm
  refine ⟨hs, rfl, rfl, ?_⟩
  rwa [hreg]

theorem callAt_isSome {z : ℤ} {reg line : Text} (hs : Shows z line) (hl : Loads reg line) :
    (callAt z line).isSome := by
  rw [callAt, if_pos hs, Option.isSome_map]
  exact search_op_isSome hl

theorem findInsn_eq (z : ℤ) (line : Text) :
    findInsn (some (z, insnRegex z)) line = .ok (callAt z line).toList := by
  unfold findInsn callAt
  by_cases hs : Shows z line
  · obtain ⟨m, hm⟩ := Option.isSome_iff_exists.mp (search_insn.mpr hs)
    have hop : reCompile opPattern = .ok opRegex := by rw [reCompile, compile_op]
    simp only [hm, hop, if_pos hs, bind, Except.bind]
    cases search opRegex line <;> rfl
  · have hnone : search (insnRegex z) line = none :=
      Option.not_isSome_iff_eq_none.mp (mt search_insn.mp hs)
    simp only [hnone, if_neg hs]
    rfl

/-- Once the function is found, each line is tested by itself. -/
theorem scan_found (targets : List Text) (z : ℤ) (lines : List Text) :
    scan targets none (some (z, insnRegex z)) lines = (lines.filterMap (callAt z), none) := by
  induction lines with
  | nil => rfl
  | cons line lines ih =>
    simp only [scan, findFunc, findInsn_eq, ih]
    cases hc : callAt z line <;> simp [hc]

/-- The lines above the function. -/
theorem scan_above {targets above : List Text} {p : Regex} (h : ∀ k ∈ above, search p k = none)
    (lines : List Text) :
    scan targets (some p) none (above ++ lines) = scan targets (some p) none lines := by
  induction above with
  | nil => rfl
  | cons line above ih =>
    obtain ⟨hline, habove⟩ := List.forall_mem_cons.mp h
    simp only [List.cons_append, scan, findFunc, hline, findInsn, ih habove, List.nil_append]

theorem intArg_ok {w : Option Text} {e : PyError} {z : ℤ} :
    intArg w e = .ok z ↔ w.bind pyInt = some z := by
  cases w with
  | none => simp [intArg]
  | some w =>
    rw [Option.bind_some, intArg]
    cases pyInt w <;> simp

section Aims

variable {targets lines below : List Text} {line : Text} {p : Regex} {m : State} {z funcAddr off : ℤ}

theorem findFunc_found (hline : search p line = some m)
    (haddr : (m.group 1).bind pyInt = some funcAddr) (hoff : targets[1]?.bind pyInt = some off) :
    findFunc targets (some p) none line =
      .ok (none, some (funcAddr + off, insnRegex (funcAddr + off))) := by
  have hre : reCompile (insnPattern (funcAddr + off)) = .ok (insnRegex (funcAddr + off)) := by
    rw [reCompile, compile_insn]
  simp only [findFunc, hline, intArg_ok.mpr haddr, intArg_ok.mpr hoff]
  change (reCompile (insnPattern (funcAddr + off)) >>= fun r =>
    pure (none, some (funcAddr + off, r))) = _
  rw [hre]
  rfl

theorem Aims.cons (h : Aims targets lines z below)
    (hp : compile (funcPattern (targets.headD [])) = some p) (hline : search p line = none) :
    Aims targets (line :: lines) z below := by
  obtain ⟨above, hfunc, habove, hfound, haddr, hoff⟩ := h
  obtain rfl := Option.some.inj (hp.symm.trans hfunc)
  exact .intro (line :: above) hfunc (List.forall_mem_cons.mpr ⟨hline, habove⟩) hfound haddr hoff

theorem aims_of_scan (hp : compile (funcPattern (targets.headD [])) = some p)
    (h : (scan targets (some p) none lines).1 ≠ []) : ∃ z below, Aims targets lines z below := by
  induction lines with
  | nil => exact absurd rfl h
  | cons line lines ih =>
    cases hs : search p line with
    | none =>
      simp only [scan, findFunc, hs, findInsn, List.nil_append] at h
      obtain ⟨z, below, ha⟩ := ih h
      exact ⟨z, below, ha.cons hp hs⟩
    | some m =>
      cases haddr : intArg (m.group 1) .typeError with
      | error e => exact absurd (by simp only [scan, findFunc, hs, haddr]; rfl) h
      | ok funcAddr =>
        cases hoff : intArg targets[1]? .indexError with
        | error e => exact absurd (by simp only [scan, findFunc, hs, haddr, hoff]; rfl) h
        | ok off =>
          exact ⟨_, _, .intro [] hp (List.forall_mem_nil _) hs (intArg_ok.mp haddr)
            (intArg_ok.mp hoff)⟩

end Aims

section Patch

variable {exeText loc : Text} {z : ℤ} {below : List Text}

theorem patch_of_aims (h : Aims (loc.splitOn '+') (splitlines exeText) z below) :
    patch exeText loc = (below.filterMap (callAt z), none) := by
  unfold patch
  generalize splitlines exeText = lines at h
  obtain ⟨above, hfunc, habove, hline, haddr, hoff⟩ := h
  have hre : ∀ p q, compile p = some q → reCompile p = .ok q := by
    intro p q hp
    rw [reCompile, hp]
  simp only [hre _ _ hfunc, scan_above habove]
  rw [← scan_found (loc.splitOn '+'), scan, findFunc_found hline haddr hoff, scan]
  rfl

theorem aims_of_patch (h : (patch exeText loc).1 ≠ []) :
    ∃ z below, Aims (loc.splitOn '+') (splitlines exeText) z below := by
  unfold patch at h
  cases hp : compile (funcPattern ((loc.splitOn '+').headD [])) with
  | none =>
    simp only [reCompile, hp] at h
    exact absurd rfl h
  | some p =>
    simp only [reCompile, hp] at h
    exact aims_of_scan hp h

end Patch

end Pthabt.Hlpatch
