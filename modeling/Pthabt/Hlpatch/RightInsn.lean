import Mathlib.Data.List.Nodup
import Pthabt.Hlpatch.Scan

/-! Which instruction `patch` gets patched. The address is searched for anywhere in a line and to the end
of the listing, so that another load whose address ends in the digits of the target is patched too,
with the address of the target and its own register. The name of the function is put into its
pattern as it is, so that another line may be taken for that of the function. -/

namespace Pthabt.Hlpatch

open Lib Regex

/-! ### Listings -/

/-- A digit of an address. -/
def isAddrDigit (c : Char) : Bool := decide ('0' ≤ c ∧ c ≤ '9' ∨ 'a' ≤ c ∧ c ≤ 'f')

/-- The address of the instruction on a line, `  1004:` and a tab. -/
def addrOfInsn (line : Text) : Option ℕ :=
  let text := line.dropWhile (· = ' ')
  match text.dropWhile isAddrDigit with
  | ':' :: '\t' :: _ => hexValue (text.takeWhile isAddrDigit)
  | _ => none

/-- The address and the name on the line above a function, `0000000000001000 <f(int)>:`. -/
def funcOfHeader (line : Text) : Option (ℕ × Text) :=
  match line.dropWhile isAddrDigit with
  | ' ' :: '<' :: name =>
    if ['>', ':'] <:+ name then
      (hexValue (line.takeWhile isAddrDigit)).map fun n => (n, name.take (name.length - 2))
    else none
  | _ => none

/-- What follows the bracket that closes `d` others first. -/
def afterParams (d : ℕ) : Text → Option Text
  | [] => none
  | '(' :: text => afterParams (d + 1) text
  | ')' :: text =>
    match d with
    | 0 => some text
    | d + 1 => afterParams d text
  | _ :: text => afterParams d text

/-- `name` is `func`, or `func` with parameters and, after a blank, qualifiers. -/
def isNameOf (func name : Text) : Bool :=
  func.isPrefixOf name && match name.drop func.length with
    | [] => true
    | '(' :: params => (afterParams 0 params).any fun rest => rest.head?.all (· = ' ')
    | _ => false

/-- The addresses at which `func` stands in the listing. -/
def occurrences (lines : List Text) (func : Text) : List ℕ :=
  ((lines.filterMap funcOfHeader).filter fun f => isNameOf func f.2).map Prod.fst

/-- The line above `func`. -/
def HeaderOf (func line : Text) : Prop := ∃ f, funcOfHeader line = some f ∧ isNameOf func f.2 = true

/-- The location as `perf script` prints it. -/
def location (func : Text) (off : ℕ) : Text := func ++ '+' :: '0' :: 'x' :: Nat.toDigits 16 off

/-- The calls are right for the instruction at `insnAddr`: one at most, with this address and the
register of the load that stands there. -/
structure PatchesRight (lines : List Text) (insnAddr : ℕ) (calls : List Call) : Prop where
  once : calls.length ≤ 1
  addr : ∀ c ∈ calls, c.insnAddr = insnAddr
  line : ∀ c ∈ calls, c.line ∈ lines ∧ addrOfInsn c.line = some insnAddr
  load : ∀ c ∈ calls, Loads c.reg c.line

/-- The scan starts at the line above `func`, a name that stands for itself in a pattern. -/
def StartsAt (func : Text) (below : List Text) : Prop :=
  (∀ c ∈ func, Plain c) ∧ ∃ line, below.head? = some line ∧ HeaderOf func line

/-- From the line that is taken for that of the function on, no load but that of the target shows the
address looked for. This is the target's, unless another line is taken for that of the function. -/
def OnlyTarget (lines : List Text) (func : Text) (addr off : ℕ) : Prop :=
  ∀ z below, Aims ((location func off).splitOn '+') lines z below →
    (StartsAt func below → ∀ line ∈ below, ∀ reg, Loads reg line →
      Shows (addr + off : ℕ) line → addrOfInsn line = some (addr + off)) ∧
    (¬ StartsAt func below → ∀ line ∈ below, ∀ reg, Loads reg line →
      Shows z line → z = (addr + off : ℕ) ∧ addrOfInsn line = some (addr + off))

/-! ### Numbers -/

theorem hexDigit_digitChar {n : ℕ} (hn : n < 16) : hexDigit n.digitChar = some n := by
  revert n
  decide

theorem hexValue_toDigits (n : ℕ) : hexValue (Nat.toDigits 16 n) = some n := by
  rw [hexValue, if_neg Nat.toDigits_ne_nil]
  induction n using Nat.strong_induction_on with
  | _ n ih =>
    rw [Nat.toDigits_eq_if (by decide)]
    split_ifs with h
    · simp [hexDigit_digitChar h]
    · rw [List.foldlM_append, ih _ (Nat.div_lt_self (by omega) (by decide))]
      have hdigit := hexDigit_digitChar (Nat.mod_lt n (show 0 < 16 by decide))
      simp only [Option.bind_eq_bind, Option.bind_some, List.foldlM_cons, List.foldlM_nil, hdigit,
        Option.map_some]
      exact congrArg some (Nat.div_add_mod n 16)

theorem strip_eq {w : Text} (hw : ∀ c ∈ w, CharSet.space.has c = false) : strip w = w := by
  have hdrop : ∀ u : Text, (∀ c ∈ u, CharSet.space.has c = false) →
      u.dropWhile CharSet.space.has = u := by
    intro u hu
    cases u with
    | nil => rfl
    | cons c u => rw [List.dropWhile_cons, hu c List.mem_cons_self, if_neg Bool.false_ne_true]
  rw [strip, hdrop w hw, hdrop _ fun c hc => hw c (List.mem_reverse.mp hc), List.reverse_reverse]

theorem not_space_of_addrDigit {c : Char} (h : isAddrDigit c = true) : CharSet.space.has c = false := by
  have hlow : '0' ≤ c := by
    rcases of_decide_eq_true h with ⟨h, -⟩ | ⟨h, -⟩
    · exact h
    · exact Char.le_trans (by decide) h
  simp only [CharSet.has, CharSet.space, List.any_cons, List.any_nil, Bool.or_false, Bool.false_xor,
    Bool.or_eq_false_iff, decide_eq_false_iff_not]
  exact ⟨fun hc => absurd (Char.le_trans hlow hc.2) (by decide),
    fun hc => absurd (Char.le_trans hlow hc.2) (by decide)⟩

theorem toDigits_addrDigits (n : ℕ) : ∀ c ∈ Nat.toDigits 16 n, isAddrDigit c = true :=
  forall_mem_toDigits (by decide) n

/-- A number in a listing. -/
theorem pyInt_addrDigits {w : Text} (hw : ∀ c ∈ w, isAddrDigit c = true) :
    pyInt w = (hexValue w).map fun n : ℕ => (n : ℤ) := by
  have hunsigned : unsignedHex w = hexValue w := by
    unfold unsignedHex
    split
    · exact absurd (hw 'x' (by simp)) (by decide)
    · exact absurd (hw 'X' (by simp)) (by decide)
    · rfl
  rw [pyInt, strip_eq fun c hc => not_space_of_addrDigit (hw c hc)]
  split
  · exact absurd (hw '-' (by simp)) (by decide)
  · exact absurd (hw '+' (by simp)) (by decide)
  · rw [hunsigned]

/-- An offset in a location. -/
theorem pyInt_offset (n : ℕ) : pyInt ('0' :: 'x' :: Nat.toDigits 16 n) = some (n : ℤ) := by
  have hspace : ∀ c ∈ '0' :: 'x' :: Nat.toDigits 16 n, CharSet.space.has c = false := by
    rw [List.forall_mem_cons, List.forall_mem_cons]
    exact ⟨by decide, by decide, fun c hc => not_space_of_addrDigit (toDigits_addrDigits n c hc)⟩
  rw [pyInt, strip_eq hspace]
  change (hexValue (Nat.toDigits 16 n)).map _ = _
  rw [hexValue_toDigits]
  rfl

/-! ### The target -/

theorem takeWhile_blank {u : Text} (hu : ' ' ∉ u) (v : Text) :
    (u ++ ' ' :: v).takeWhile (· ≠ ' ') = u := by
  have hne : ∀ c ∈ u, decide (c ≠ ' ') = true := fun c hc =>
    decide_eq_true fun h : c = ' ' => hu (h ▸ hc)
  rw [List.takeWhile_append_of_pos hne]
  simp

/-- The group of a name at the start of its line is the number that stands there. -/
theorem number_of_header {func line : Text} {f : ℕ × Text} {m : State}
    (hline : funcOfHeader line = some f) (hm : search (funcRegex func) line = some m) :
    (m.group 1).bind pyInt = some (f.1 : ℤ) := by
  obtain ⟨w, hw, hword, rest, hrest⟩ := search_func_some hm
  have hdigits : ∀ c ∈ line.takeWhile isAddrDigit, isAddrDigit c = true :=
    List.all_eq_true.mp List.all_takeWhile
  have hsplit := List.takeWhile_append_dropWhile (p := isAddrDigit) (l := line)
  have heq : ∀ v, line.dropWhile isAddrDigit = ' ' :: v → line.takeWhile isAddrDigit = w := by
    intro v hv
    rw [hv] at hsplit
    have hleft := takeWhile_blank (fun h => absurd (hdigits _ h) (by decide)) v
    have hright := takeWhile_blank (u := w) (fun h => absurd (hword.2 _ h) (by decide)) ('<' :: rest)
    rw [hsplit] at hleft
    rw [← hleft, ← hright, ← hrest, List.append_assoc]
    rfl
  unfold funcOfHeader at hline
  split at hline
  · rename_i name hname
    split_ifs at hline
    obtain ⟨n, hn, rfl⟩ := Option.map_eq_some_iff.mp hline
    rw [hw, Option.bind_some, ← heq _ hname, pyInt_addrDigits hdigits, hn]
    rfl
  · cases hline

theorem targets_location {func : Text} (hf : ∀ c ∈ func, Plain c) (off : ℕ) :
    (location func off).splitOn '+' = [func, '0' :: 'x' :: Nat.toDigits 16 off] := by
  have hfunc : '+' ∉ func := fun h => absurd (hf _ h) (by decide)
  have hoff : '+' ∉ '0' :: 'x' :: Nat.toDigits 16 off := by
    simp only [List.mem_cons, not_or]
    exact ⟨by decide, by decide, fun h => absurd (toDigits_addrDigits off _ h) (by decide)⟩
  rw [location, List.splitOn_append_cons_self_of_not_mem hfunc, List.splitOn_eq_singleton hoff]

theorem Aims.sublist {targets lines below : List Text} {z : ℤ} (h : Aims targets lines z below) :
    below.Sublist lines := by
  obtain ⟨above, -, -, -, -, -⟩ := h
  exact List.sublist_append_right above _

theorem mem_occurrences {lines : List Text} {func line : Text} {f : ℕ × Text} (hmem : line ∈ lines)
    (hline : funcOfHeader line = some f) (hname : isNameOf func f.2 = true) :
    f.1 ∈ occurrences lines func :=
  List.mem_map.mpr
    ⟨f, List.mem_filter.mpr ⟨List.mem_filterMap.mpr ⟨line, hmem, hline⟩, hname⟩, rfl⟩

/-- From its line on the function is searched for its own instruction. -/
theorem Aims.of_startsAt {lines below : List Text} {func : Text} {addr off : ℕ} {z : ℤ}
    (h : Aims ((location func off).splitOn '+') lines z below) (hstart : StartsAt func below)
    (hocc : occurrences lines func = [addr]) : z = (addr + off : ℕ) := by
  obtain ⟨hf, line, hhead, f, hline, hname⟩ := hstart
  have hmem := mem_occurrences (h.sublist.subset (List.mem_of_mem_head? hhead)) hline hname
  rw [hocc, List.mem_singleton] at hmem
  rw [targets_location hf] at h
  obtain ⟨-, hfunc, -, hm, haddr, hoff⟩ := h
  obtain rfl := Option.some.inj hhead
  obtain rfl := Option.some.inj ((compile_func hf).symm.trans hfunc)
  rw [number_of_header hline hm] at haddr
  have hz : (off : ℤ) = _ := Option.some.inj ((pyInt_offset off).symm.trans hoff)
  rw [← hz, ← Option.some.inj haddr, hmem, Int.natCast_add]

/-- Lines that show the address of one instruction are at most one. -/
theorem length_filterMap_le {α β γ : Type*} [DecidableEq γ] {f : α → Option β} {g : α → Option γ}
    {b : γ} {l : List α} (h : ∀ x ∈ l, (f x).isSome → g x = some b) :
    (l.filterMap f).length ≤ (l.filterMap g).count b := by
  induction l with
  | nil => exact Nat.le_refl _
  | cons x l ih =>
    obtain ⟨hx, hl⟩ := List.forall_mem_cons.mp h
    cases hf : f x with
    | none =>
      rw [List.filterMap_cons_none hf]
      refine (ih hl).trans ?_
      exact ((List.sublist_cons_self x l).filterMap g).count_le b
    | some y =>
      have hg := hx (by rw [hf]; rfl)
      rw [List.filterMap_cons_some hf, List.filterMap_cons_some hg, List.length_cons,
        List.count_cons_self]
      exact Nat.succ_le_succ (ih hl)


/-- The calls are right exactly when every load that shows the address looked for is that of the target. -/
theorem calls_right_iff {exeText loc : Text} {target : ℕ}
    (hdistinct : ((splitlines exeText).filterMap addrOfInsn).Nodup) :
    PatchesRight (splitlines exeText) target (patch exeText loc).1 ↔
      ∀ z below, Aims (loc.splitOn '+') (splitlines exeText) z below → ∀ line ∈ below, ∀ reg,
        Loads reg line → Shows z line → z = target ∧ addrOfInsn line = some target := by
  constructor
  · intro h z below haims line hline reg hload hshows
    obtain ⟨c, hc⟩ := Option.isSome_iff_exists.mp (callAt_isSome hshows hload)
    have hmem : c ∈ (patch exeText loc).1 := by
      rw [patch_of_aims haims]
      exact List.mem_filterMap.mpr ⟨line, hline, hc⟩
    obtain ⟨-, hcline, hcaddr, -⟩ := callAt_some hc
    exact ⟨hcaddr ▸ h.addr c hmem, hcline ▸ (h.line c hmem).2⟩
  · intro h
    by_cases hcalls : (patch exeText loc).1 = []
    · rw [hcalls]
      exact ⟨Nat.zero_le _, nofun, nofun, nofun⟩
    · obtain ⟨z, below, haims⟩ := aims_of_patch hcalls
      have honly : ∀ line ∈ below, ∀ c, callAt z line = some c →
          z = target ∧ addrOfInsn line = some target := by
        intro line hline c hc
        obtain ⟨hshows, rfl, -, hload⟩ := callAt_some hc
        exact h z below haims _ hline _ hload hshows
      rw [patch_of_aims haims]
      refine ⟨?_, fun c hc => ?_, fun c hc => ?_, fun c hc => ?_⟩
      · refine (length_filterMap_le fun line hline hsome => ?_).trans
          (List.nodup_iff_count_le_one.mp (hdistinct.sublist (haims.sublist.filterMap _)) target)
        obtain ⟨c, hc⟩ := Option.isSome_iff_exists.mp hsome
        exact (honly line hline c hc).2
      all_goals
        obtain ⟨line, hline, hc⟩ := List.mem_filterMap.mp hc
        obtain ⟨-, hcline, hcaddr, hload⟩ := callAt_some hc
      · rw [hcaddr]
        exact (honly line hline c hc).1
      · rw [hcline]
        exact ⟨haims.sublist.subset hline, (honly line hline c hc).2⟩
      · rwa [hcline]

/-- `patch` makes the right call, if any, exactly when from the line of the function on no load but that of
the target shows the address. -/
theorem patch_right_iff {exeText func : Text} {addr off : ℕ}
    (hdistinct : ((splitlines exeText).filterMap addrOfInsn).Nodup)
    (hocc : occurrences (splitlines exeText) func = [addr]) :
    PatchesRight (splitlines exeText) (addr + off) (patch exeText (location func off)).1 ↔
      OnlyTarget (splitlines exeText) func addr off := by
  rw [calls_right_iff hdistinct]
  constructor
  · intro h z below haims
    refine ⟨fun hstart line hline reg hload hshows => ?_, fun _ => h z below haims⟩
    have hz := haims.of_startsAt hstart hocc
    exact (h z below haims line hline reg hload (hz ▸ hshows)).2
  · intro h z below haims line hline reg hload hshows
    obtain ⟨hown, hother⟩ := h z below haims
    by_cases hstart : StartsAt func below
    · have hz := haims.of_startsAt hstart hocc
      exact ⟨hz, hown hstart line hline reg hload (hz ▸ hshows)⟩
    · exact hother hstart line hline reg hload hshows

/-! ### Addresses that end alike -/

/-- An end of a text none of whose letters is in the first part is an end of the second. -/
theorem suffix_of_append {w u v : Text} (h : w <:+ u ++ v) (hw : ∀ c ∈ w, c ∉ u) : w <:+ v := by
  rcases List.suffix_or_suffix_of_suffix h (List.suffix_append u v) with hv | ⟨t, rfl⟩
  · exact hv
  · have ht : t <:+ u := List.suffix_append_self_iff.mp h
    cases t with
    | nil => exact List.suffix_refl v
    | cons c t => exact absurd (ht.mem List.mem_cons_self) (hw c List.mem_cons_self)

/-- A word and the first separator `c` of a text: the word ends the part before it, or both come later. -/
theorem infix_append_cons {w u v : Text} {c : Char} (hw : c ∉ w) (hu : c ∉ u) :
    w ++ [c] <:+: u ++ c :: v ↔ w <:+ u ∨ w ++ [c] <:+: v := by
  constructor
  · rintro ⟨pre, post, h⟩
    have hcut : (pre ++ w) ++ c :: post = u ++ c :: v := by
      rw [← h]
      simp
    rcases List.append_eq_append_iff.mp hcut with ⟨t, hut, ht⟩ | ⟨t, hpre, ht⟩
    · cases t with
      | nil => exact .inl ⟨pre, by rw [hut, List.append_nil]⟩
      | cons d t =>
        obtain ⟨rfl, -⟩ := List.cons.inj ht
        exact absurd (hut ▸ List.mem_append_right _ List.mem_cons_self) hu
    · cases t with
      | nil => exact .inl ⟨pre, by rw [hpre, List.append_nil]⟩
      | cons d t =>
        obtain ⟨rfl, rfl⟩ := List.cons.inj ht
        have hend : w <:+ u ++ c :: t := ⟨pre, hpre⟩
        rcases List.suffix_or_suffix_of_suffix hend (List.suffix_append u (c :: t)) with hin | hin
        · rcases List.suffix_cons_iff.mp hin with rfl | ⟨s, rfl⟩
          · exact absurd List.mem_cons_self hw
          · exact .inr ⟨s, post, by simp⟩
        · exact absurd (hin.mem List.mem_cons_self) hw
  · rintro (⟨t, rfl⟩ | ⟨pre, post, rfl⟩)
    · exact ⟨t, v, by simp⟩
    · exact ⟨u ++ c :: pre, post, by simp⟩

/-- On the line of an instruction the digits of an address show as the end of its own, or further on. -/
theorem shows_insn_iff {blanks digits rest : Text} {n : ℕ} (hblanks : ∀ c ∈ blanks, c = ' ')
    (hdigits : ∀ c ∈ digits, isAddrDigit c = true) :
    Shows n (blanks ++ digits ++ ':' :: rest) ↔ Nat.toDigits 16 n <:+ digits ∨ Shows n rest := by
  have hn : ∀ c ∈ Nat.toDigits 16 n, isAddrDigit c = true := toDigits_addrDigits n
  have hhex : formatHex n = Nat.toDigits 16 n := by
    rw [formatHex, if_neg (by omega), Int.natAbs_natCast]
  have hcolon : ':' ∉ blanks ++ digits := by
    rw [List.mem_append, not_or]
    exact ⟨fun h => absurd (hblanks _ h) (by decide), fun h => absurd (hdigits _ h) (by decide)⟩
  rw [Shows, Shows, hhex, infix_append_cons (fun h => absurd (hn _ h) (by decide)) hcolon]
  refine or_congr_left ⟨fun h => suffix_of_append h fun c hc hb => ?_, fun h => ?_⟩
  · exact absurd (hblanks c hb ▸ hn c hc) (by decide)
  · exact List.suffix_append_of_suffix h

/-- A load further on whose address ends in the digits of the target spoils the calls. -/
theorem longer_address_not_right {exeText loc blanks digits rest reg : Text} {below : List Text}
    {target : ℕ}
    (hdistinct : ((splitlines exeText).filterMap addrOfInsn).Nodup)
    (haims : Aims (loc.splitOn '+') (splitlines exeText) target below)
    (hblanks : ∀ c ∈ blanks, c = ' ') (hdigits : ∀ c ∈ digits, isAddrDigit c = true)
    (hline : blanks ++ digits ++ ':' :: rest ∈ below) (hload : Loads reg (blanks ++ digits ++ ':' :: rest))
    (hend : Nat.toDigits 16 target <:+ digits)
    (hother : addrOfInsn (blanks ++ digits ++ ':' :: rest) ≠ some target) :
    ¬ PatchesRight (splitlines exeText) target (patch exeText loc).1 := by
  rw [calls_right_iff hdistinct]
  intro h
  have hshows : Shows target (blanks ++ digits ++ ':' :: rest) :=
    (shows_insn_iff hblanks hdigits).mpr (.inl hend)
  exact hother (h _ _ haims _ hline reg hload hshows).2

/-- A listing with one load. -/
def oneLoad : Text :=
  "0000000000001000 <f(int)>:\n    1004:\t48 8b 00\tmov    (%rax),%rax\n".toList

/-- The same with a load 65536 bytes further on. -/
def twoLoads : Text :=
  oneLoad ++ "\n0000000000011000 <g(int)>:\n   11004:\t48 8b 1b\tmov    (%rbx),%rbx\n".toList

theorem oneLoad_patch : (patch oneLoad (location ['f'] 4)).1 =
    [⟨"    1004:\t48 8b 00\tmov    (%rax),%rax".toList, 0x1004, "rax".toList⟩] := by decide +kernel

/-- The theorem at that listing. -/
theorem oneLoad_onlyTarget : OnlyTarget (splitlines oneLoad) ['f'] 0x1000 4 := by
  refine (patch_right_iff (by decide +kernel) (by decide +kernel)).mp ?_
  rw [oneLoad_patch]
  refine ⟨Nat.le_refl 1, ?_, ?_, ?_⟩ <;> rw [List.forall_mem_singleton]
  · rfl
  · decide +kernel
  · refine ⟨"mov    (%rax),".toList, ⟨"    ".toList, ?_, ?_, ?_⟩, ?_⟩ <;> decide +kernel

/-- Both loads are patched, and the second call is for the first address with the other register. -/
theorem twoLoads_not_right :
    ((splitlines twoLoads).filterMap addrOfInsn).Nodup ∧
      occurrences (splitlines twoLoads) ['f'] = [0x1000] ∧
      ¬ PatchesRight (splitlines twoLoads) (0x1000 + 4) (patch twoLoads (location ['f'] 4)).1 := by
  have hcalls : (patch twoLoads (location ['f'] 4)).1.length = 2 := by decide +kernel
  refine ⟨by decide +kernel, by decide +kernel, fun h => ?_⟩
  have honce := h.once
  rw [hcalls] at honce
  exact absurd honce (by decide)

end Pthabt.Hlpatch
