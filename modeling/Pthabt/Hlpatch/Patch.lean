import Mathlib.Algebra.Group.Int.Defs
import Mathlib.Data.Int.Basic
import Pthabt.Lib.RegexSyntax

/-! `patch` of `hlpatch.py`. It goes through the lines that `objdump` printed: until the function of the
location is found it searches each line for the function, and from that line on, to the end of
the listing, each line for the address of the instruction. A Python string is the list of its
characters. The messages of `debug_print` are left out. -/

namespace Pthabt.Hlpatch

open Lib Regex

/-- The exceptions that end `patch`. -/
inductive PyError where
  | reError
  | indexError
  | valueError
  | typeError
  deriving DecidableEq

/-- `str.splitlines`; `acc` is the line so far, reversed. -/
def splitlinesFrom (acc : Text) : Text → List Text
  | [] => if acc = [] then [] else [acc.reverse]
  | '\r' :: '\n' :: text => acc.reverse :: splitlinesFrom [] text
  | c :: text =>
    if c = '\n' ∨ c = '\r' then acc.reverse :: splitlinesFrom [] text
    else splitlinesFrom (c :: acc) text

def splitlines (text : Text) : List Text := splitlinesFrom [] text

/-- The value of a hexadecimal digit. -/
def hexDigit (c : Char) : Option ℕ :=
  if '0' ≤ c ∧ c ≤ '9' then some (c.toNat - '0'.toNat)
  else if 'a' ≤ c ∧ c ≤ 'f' then some (c.toNat - 'a'.toNat + 10)
  else if 'A' ≤ c ∧ c ≤ 'F' then some (c.toNat - 'A'.toNat + 10)
  else none

/-- The value of at least one hexadecimal digit. -/
def hexValue (w : Text) : Option ℕ :=
  if w = [] then none else w.foldlM (fun n c => (hexDigit c).map (16 * n + ·)) 0

def strip (w : Text) : Text :=
  ((w.dropWhile CharSet.space.has).reverse.dropWhile CharSet.space.has).reverse

/-- The digits of `int(w, 16)` after the sign, with or without `0x`. -/
def unsignedHex : Text → Option ℕ
  | '0' :: 'x' :: w => hexValue w
  | '0' :: 'X' :: w => hexValue w
  | w => hexValue w

/-- `int(w, 16)` -/
def pyInt (w : Text) : Option ℤ :=
  match strip w with
  | '-' :: w => (unsignedHex w).map fun n : ℕ => -(n : ℤ)
  | '+' :: w => (unsignedHex w).map fun n : ℕ => (n : ℤ)
  | w => (unsignedHex w).map fun n : ℕ => (n : ℤ)

/-- `'{:x}'.format(z)` -/
def formatHex (z : ℤ) : Text :=
  if z < 0 then '-' :: Nat.toDigits 16 z.natAbs else Nat.toDigits 16 z.natAbs

/-- `hex(z)`, which marks a number that no machine integer holds. -/
def pyHex (z : ℤ) : Text :=
  (if z < 0 then "-0x".toList else "0x".toList) ++ Nat.toDigits 16 z.natAbs ++
    if -2 ^ 63 ≤ z ∧ z < 2 ^ 63 then [] else ['L']

/-- A call of `e9tool` for the register `reg`, and the line that `patch` was at. -/
structure Call where
  line : Text
  insnAddr : ℤ
  reg : Text
  deriving DecidableEq

namespace Call

def matchStr (c : Call) : Text := "addr=".toList ++ pyHex c.insnAddr

def patchStr (c : Call) : Text := "pref_yield<clean>(".toList ++ c.reg ++ ")@pref_yield".toList

/-- The argument list of `subprocess.call`. -/
def argv (e9path exeFile : Text) (c : Call) : List Text :=
  [e9path, "-M".toList, c.matchStr, "-P".toList, c.patchStr, exeFile]

end Call

def funcPattern (target : Text) : Text := "^(\\w+) <(".toList ++ target ++ ")\\(.+\\)>".toList

def insnPattern (insnAddr : ℤ) : Text := '(' :: formatHex insnAddr ++ "):".toList

def opPattern : Text := "mov\\s+\\(%(\\w+)\\),".toList

/-- `re.compile` -/
def reCompile (pattern : Text) : Except PyError Regex :=
  match compile pattern with
  | none => .error .reError
  | some r => .ok r

/-- `int(w, 16)`, where a group that took no part in a match is `None`. -/
def intArg (w : Option Text) (missing : PyError) : Except PyError ℤ :=
  match w with
  | none => .error missing
  | some w =>
    match pyInt w with
    | none => .error .valueError
    | some z => .ok z

/-- What the first branch of the loop leaves in `pattern_func` and, with `insn_addr`, in
`pattern_insn`. -/
def findFunc (targets : List Text) (patternFunc : Option Regex) (patternInsn : Option (ℤ × Regex))
    (line : Text) : Except PyError (Option Regex × Option (ℤ × Regex)) :=
  match patternFunc with
  | none => .ok (none, patternInsn)
  | some p =>
    match search p line with
    | none => .ok (some p, patternInsn)
    | some m => do
      let funcAddr ← intArg (m.group 1) .typeError
      let off ← intArg targets[1]? .indexError
      let r ← reCompile (insnPattern (funcAddr + off))
      return (none, some (funcAddr + off, r))

/-- The calls that the second branch makes, one at most. -/
def findInsn (patternInsn : Option (ℤ × Regex)) (line : Text) : Except PyError (List Call) :=
  match patternInsn with
  | none => .ok []
  | some (insnAddr, r) =>
    match search r line with
    | none => .ok []
    | some _ => do
      let patternOp ← reCompile opPattern
      match search patternOp line with
      | none => return []
      | some m => return [⟨line, insnAddr, (m.group 1).getD "None".toList⟩]

/-- The loop over the lines: the calls it makes, and the exception that ended it. -/
def scan (targets : List Text) (patternFunc : Option Regex) (patternInsn : Option (ℤ × Regex)) :
    List Text → List Call × Option PyError
  | [] => ([], none)
  | line :: lines =>
    match findFunc targets patternFunc patternInsn line with
    | .error e => ([], some e)
    | .ok (patternFunc, patternInsn) =>
      match findInsn patternInsn line with
      | .error e => ([], some e)
      | .ok calls =>
        let later := scan targets patternFunc patternInsn lines
        (calls ++ later.1, later.2)

def patch (exeText loc : Text) : List Call × Option PyError :=
  let targets := loc.splitOn '+'
  match reCompile (funcPattern (targets.headD [])) with
  | .error e => ([], some e)
  | .ok patternFunc => scan targets (some patternFunc) none (splitlines exeText)

end Pthabt.Hlpatch
