import Pthabt.Lib.Regex

/-! The syntax of regular expressions: `compile` reads a pattern character by character, with a stack of
the brackets that are open. Left out are the notations that begin with `(?`, except `(?:`, and the
escapes of letters and digits other than `\d`, `\s` and `\w`; such a pattern counts as wrong. -/

namespace Pthabt.Lib.Regex

/-- What an open bracket holds so far: the finished branches and the items of the one being read, the
latest first. -/
structure Bracket where
  number : Option ℕ
  branches : List Regex
  items : List Regex
  deriving DecidableEq

def Bracket.regex (b : Bracket) : Regex :=
  b.branches.foldl (fun r q => .alt q r) (concat b.items.reverse)

/-- What the next character belongs to. -/
inductive Mode where
  | plain
  | escape
  | bracket
  | extension
  | braces (read : Text)
  | repeated
  | setStart
  | set (s : CharSet)
  | setAfter (s : CharSet) (c : Char)
  | setRange (s : CharSet) (c : Char)
  deriving DecidableEq

/-- A pattern that is being read; `groups` counts its groups. -/
structure Reading where
  mode : Mode
  top : Bracket
  below : List Bracket
  groups : ℕ
  deriving DecidableEq

namespace Reading

def new : Reading := ⟨.plain, ⟨none, [], []⟩, [], 0⟩

def setItems (p : Reading) (mode : Mode) (items : List Regex) : Reading :=
  { p with mode := mode, top := { p.top with items := items } }

def push (p : Reading) (r : Regex) : Reading := p.setItems .plain (r :: p.top.items)

def pushText (p : Reading) (w : Text) : Reading :=
  p.setItems .plain ((w.map lit).reverse ++ p.top.items)

/-- A numbered bracket opens a group. -/
def openGroup (p : Reading) : Reading :=
  ⟨.plain, ⟨some (p.groups + 1), [], []⟩, p.top :: p.below, p.groups + 1⟩

def openBracket (p : Reading) : Reading :=
  ⟨.plain, ⟨none, [], []⟩, p.top :: p.below, p.groups⟩

def closeBracket (p : Reading) : Option Reading :=
  match p.below with
  | [] => none
  | b :: below =>
    some ⟨.plain, { b with items := .group p.top.number p.top.regex :: b.items }, below, p.groups⟩

def branch (p : Reading) : Reading :=
  { p with
    mode := .plain
    top := { p.top with branches := concat p.top.items.reverse :: p.top.branches, items := [] } }

/-- A repetition of the last item, which may be neither an anchor nor a repetition itself. -/
def repeatLast (p : Reading) (lo : ℕ) (hi : Option ℕ) : Option Reading :=
  match p.top.items with
  | [] | .start :: _ | .finish :: _ | .rep .. :: _ => none
  | r :: items => if hi.any (· < lo) then none else some (p.setItems .repeated (.rep false lo hi r :: items))

def makeLazy (p : Reading) : Reading :=
  match p.top.items with
  | .rep _ lo hi r :: items => p.setItems .plain (.rep true lo hi r :: items)
  | _ => p

def plainStep (p : Reading) (c : Char) : Option Reading :=
  match c with
  | '\\' => some { p with mode := .escape }
  | '.' => some (p.push (.set .any))
  | '^' => some (p.push .start)
  | '$' => some (p.push .finish)
  | '|' => some p.branch
  | '(' => some { p with mode := .bracket }
  | ')' => p.closeBracket
  | '[' => some { p with mode := .setStart }
  | '*' => p.repeatLast 0 none
  | '+' => p.repeatLast 1 none
  | '?' => p.repeatLast 0 (some 1)
  | '{' => some { p with mode := .braces [] }
  | c => some (p.push (lit c))

def escapeStep (p : Reading) (c : Char) : Option Reading :=
  match c with
  | 'd' => some (p.push (.set .digit))
  | 'D' => some (p.push (.set (CharSet.digit.compl)))
  | 's' => some (p.push (.set .space))
  | 'S' => some (p.push (.set (CharSet.space.compl)))
  | 'w' => some (p.push (.set .word))
  | 'W' => some (p.push (.set (CharSet.word.compl)))
  | c => if c.isAlphanum then none else some (p.push (lit c))

/-- Braces that turn out to be no repetition are plain text. -/
def flushBraces (p : Reading) (read : Text) : Reading := p.pushText ('{' :: read)

/-- `{lo,hi}`, where either may be missing, or `{lo}`. -/
def closeBraces (p : Reading) (read : Text) : Option Reading :=
  let lo := read.takeWhile Char.isDigit
  match read.dropWhile Char.isDigit with
  | [] =>
    if lo = [] then some (p.flushBraces ['}'])
    else p.repeatLast (Nat.ofDigitChars 10 lo 0) (some (Nat.ofDigitChars 10 lo 0))
  | _ :: hi =>
    p.repeatLast (Nat.ofDigitChars 10 lo 0) (if hi = [] then none else some (Nat.ofDigitChars 10 hi 0))

def bracesStep (p : Reading) (read : Text) (c : Char) : Option Reading :=
  if c.isDigit ∨ c = ',' ∧ ',' ∉ read then some { p with mode := .braces (read ++ [c]) }
  else if c = '}' then p.closeBraces read
  else (p.flushBraces read).plainStep c

/-- The next character of a set; the first may be a closing bracket. -/
def setStep (p : Reading) (s : CharSet) (c : Char) : Option Reading :=
  if c = ']' ∧ s.ranges ≠ [] then some (p.push (.set s))
  else if c = '\\' then none
  else some { p with mode := .setAfter s c }

def setRangeStep (p : Reading) (s : CharSet) (lo c : Char) : Option Reading :=
  if c = ']' then some (p.push (.set ((s.add lo lo).add '-' '-')))
  else if c = '\\' then none
  else if lo ≤ c then some { p with mode := .set (s.add lo c) }
  else none

def step (p : Reading) (c : Char) : Option Reading :=
  match p.mode with
  | .plain => p.plainStep c
  | .escape => p.escapeStep c
  | .bracket => if c = '?' then some { p with mode := .extension } else p.openGroup.plainStep c
  | .extension => if c = ':' then some p.openBracket else none
  | .braces read => p.bracesStep read c
  | .repeated => if c = '?' then some p.makeLazy else p.plainStep c
  | .setStart =>
    if c = '^' then some { p with mode := .set ⟨true, []⟩ } else p.setStep ⟨false, []⟩ c
  | .set s => p.setStep s c
  | .setAfter s d =>
    if c = '-' then some { p with mode := .setRange s d } else p.setStep (s.add d d) c
  | .setRange s lo => p.setRangeStep s lo c

def finish (p : Reading) : Option Regex :=
  if p.below = [] then
    match p.mode with
    | .plain | .repeated => some p.top.regex
    | .braces read => some (p.flushBraces read).top.regex
    | _ => none
  else none

end Reading

def compile (pattern : Text) : Option Regex := (pattern.foldlM Reading.step .new).bind Reading.finish

/-! ### Patterns with plain text -/

/-- A character that stands for itself in a pattern. -/
def Plain (c : Char) : Prop := c ∉ ['\\', '.', '^', '$', '|', '(', ')', '[', '*', '+', '?', '{']

instance (c : Char) : Decidable (Plain c) := inferInstanceAs (Decidable (_ ∉ _))

theorem plainStep_plain (p : Reading) {c : Char} (hc : Plain c) :
    p.plainStep c = some (p.push (lit c)) := by
  unfold Reading.plainStep
  split
  all_goals first | rfl | exact absurd hc (by decide)

theorem foldlM_plain {p : Reading} (hp : p.mode = .plain) {w : Text} (hw : ∀ c ∈ w, Plain c)
    (v : Text) : (w ++ v).foldlM Reading.step p = v.foldlM Reading.step (p.pushText w) := by
  induction w generalizing p with
  | nil =>
    rw [List.nil_append, Reading.pushText, Reading.setItems, ← hp]
    rfl
  | cons c w ih =>
    obtain ⟨hc, hw⟩ := List.forall_mem_cons.mp hw
    have hstep : p.step c = some (p.push (lit c)) := by
      rw [Reading.step, hp]
      exact plainStep_plain p hc
    rw [List.cons_append, List.foldlM_cons, hstep]
    refine (ih rfl hw).trans ?_
    simp [Reading.pushText, Reading.push, Reading.setItems]

/-- The group of plain text `w` after what was read. -/
def Reading.pushGroup (p : Reading) (w : Text) : Reading :=
  { p.push (.group (some (p.groups + 1)) (concat (w.map lit))) with groups := p.groups + 1 }

theorem foldlM_group {p : Reading} (hp : p.mode = .plain) {w : Text} (hw : ∀ c ∈ w, Plain c)
    (v : Text) :
    ('(' :: (w ++ ')' :: v)).foldlM Reading.step p = v.foldlM Reading.step (p.pushGroup w) := by
  have hopen : p.step '(' = some { p with mode := .bracket } := by
    rw [Reading.step, hp]
    rfl
  -- the first character in the bracket decides that it is a group
  have hgroup : ∀ (c : Char) (u : Text), c ≠ '?' →
      (c :: u).foldlM Reading.step { p with mode := .bracket } =
        (c :: u).foldlM Reading.step p.openGroup := by
    intro c u hc
    rw [List.foldlM_cons, List.foldlM_cons, Reading.step, if_neg hc]
    rfl
  have hfirst : (w ++ ')' :: v).foldlM Reading.step { p with mode := .bracket } =
      (w ++ ')' :: v).foldlM Reading.step p.openGroup := by
    cases w with
    | nil => exact hgroup ')' v (by decide)
    | cons c w =>
      refine hgroup c _ ?_
      rintro rfl
      exact absurd (hw _ List.mem_cons_self) (by decide)
  have hclose : (p.openGroup.pushText w).step ')' = some (p.pushGroup w) := by
    simp [Reading.step, Reading.plainStep, Reading.closeBracket, Reading.pushText, Reading.setItems,
      Reading.openGroup, Reading.pushGroup, Reading.push, Bracket.regex]
  rw [List.foldlM_cons, hopen]
  refine hfirst.trans ?_
  rw [foldlM_plain rfl hw, List.foldlM_cons, hclose]
  rfl

end Pthabt.Lib.Regex
