import Pthabt.Hook.Dispatch

/-! The names that are hooked (`hook.c`): how `parse_hooked_filenames` splits `HOOKED_FILENAMES`,
and what `is_hooked_filename` reads of a path. The copy of a name is as long as the distance from
the start of the whole string, so it ends with the name only for the first and the last one, and
its terminator is whatever `malloc` left there. -/

namespace Pthabt.Hook

open Lib CString

/-! ### `parse_hooked_filenames` -/

/-- `':'`. -/
def colon : UInt8 := 58

/-- The values of an `int` are below. -/
def intLimit : ℕ := 2 ^ 31

/-- An element of `HOOKED_FILENAMES`. -/
structure HookedName extends CString where
  colon_free : colon ∉ bytes

/-- What `malloc(size)` returned: the bytes written from its start on, and what it held before. -/
structure Malloced where
  size : ℕ
  written : List UInt8
  junk : ℕ → UInt8

def Malloced.byte (b : Malloced) (k : ℕ) : UInt8 := b.written.getD k (b.junk k)

/-- The block starts with the bytes of the string and its terminator. -/
def Malloced.Holds (b : Malloced) (s : CString) : Prop :=
  s.strlen < b.size ∧ ∀ k ≤ s.strlen, b.byte k = s.bytes.getD k 0

/-- The loop of `parse_hooked_filenames` before `s[i]`, and the last copy. `junk k` is what the block
number `k` held; there is no result when an `int` overflows. -/
def parseFrom (junk : ℕ → ℕ → UInt8) (s : List UInt8) :
    List UInt8 → ℕ → ℕ → List Malloced → Option (List Malloced)
  | [], start, i, blocks =>
    if i - start + 1 < intLimit then
      some (blocks ++ [⟨i - start + 1, strncpy (s.drop start) (i - start), junk blocks.length⟩])
    else none
  | c :: rest, start, i, blocks =>
    if i + 1 < intLimit then
      if c = colon then
        parseFrom junk s rest (i + 1) (i + 1)
          (blocks ++ [⟨i + 1, strncpy (s.drop start) i, junk blocks.length⟩])
      else parseFrom junk s rest start (i + 1) blocks
    else none

/-- `parse_hooked_filenames`: the blocks of `hooked_filenames`. -/
def parseHookedFilenames (junk : ℕ → ℕ → UInt8) (s : List UInt8) : Option (List Malloced) :=
  parseFrom junk s s 0 0 []

/-- The names joined with `':'`. -/
def joined (names : List HookedName) : List UInt8 :=
  [colon].intercalate (names.map fun n => n.bytes)

/-- There is a block for each name, it holds the name, and nothing was written behind it. -/
structure SplitExactly (blocks : List Malloced) (names : List HookedName) : Prop where
  holds : List.Forall₂ (fun b n => b.Holds n.toCString) blocks names
  inside : ∀ b ∈ blocks, b.written.length ≤ b.size

section Split

variable {junk : ℕ → ℕ → UInt8} {s : List UInt8}

@[simp] theorem joined_singleton (n : HookedName) : joined [n] = n.bytes := by simp [joined]

@[simp] theorem joined_cons_cons (n m : HookedName) (l : List HookedName) :
    joined (n :: m :: l) = n.bytes ++ colon :: joined (m :: l) := by simp [joined, List.intercalate]

theorem parseFrom_append (w rest : List UInt8) (hw : colon ∉ w) (start i : ℕ) (hi : i < intLimit)
    (blocks : List Malloced) : parseFrom junk s (w ++ rest) start i blocks =
      if i + w.length < intLimit then parseFrom junk s rest start (i + w.length) blocks else none := by
  induction w generalizing i with
  | nil => rw [List.nil_append, List.length_nil, Nat.add_zero, if_pos hi]
  | cons c w ih =>
    have hc : c ≠ colon := fun h => hw (h ▸ List.mem_cons_self)
    have hw' : colon ∉ w := fun h => hw (List.mem_cons_of_mem c h)
    rw [List.cons_append, parseFrom, List.length_cons, if_neg hc]
    by_cases hlt : i + 1 < intLimit
    · rw [if_pos hlt, ih hw' (i + 1) hlt, Nat.add_right_comm, Nat.add_assoc]
    · rw [if_neg hlt, if_neg (by omega)]

/-- The loop passes over a name. -/
theorem parseFrom_name (n : HookedName) (rest : List UInt8) (start i : ℕ) (hi : i < intLimit)
    (blocks : List Malloced) : parseFrom junk s (n.bytes ++ rest) start i blocks =
      if i + n.strlen < intLimit then parseFrom junk s rest start (i + n.strlen) blocks else none :=
  parseFrom_append n.bytes rest n.colon_free start i hi blocks

/-- The blocks for the names from the byte `i` on, with number `k` first. -/
def blocksFrom (junk : ℕ → ℕ → UInt8) (s : List UInt8) :
    ℕ → ℕ → HookedName → List HookedName → List Malloced
  | i, k, n, [] => [⟨n.strlen + 1, strncpy (s.drop i) n.strlen, junk k⟩]
  | i, k, n, m :: l =>
    ⟨i + n.strlen + 1, strncpy (s.drop i) (i + n.strlen), junk k⟩ ::
      blocksFrom junk s (i + n.strlen + 1) (k + 1) m l

/-- The names fit an `int`, and so does the size of the last block. -/
def FitsInt (n : HookedName) (l : List HookedName) : Prop :=
  (joined (n :: l)).length < intLimit ∧ ((n :: l).getLast (List.cons_ne_nil n l)).strlen + 1 < intLimit

/-- The loop makes a block for each name, unless an `int` overflows. -/
theorem parseFrom_names (n : HookedName) (l : List HookedName) (i : ℕ)
    (blocks blocks' : List Malloced) (hi : i < intLimit) :
    parseFrom junk s (joined (n :: l)) i i blocks = some blocks' ↔
      (i + (joined (n :: l)).length < intLimit ∧
        ((n :: l).getLast (List.cons_ne_nil n l)).strlen + 1 < intLimit) ∧
      blocks' = blocks ++ blocksFrom junk s i blocks.length n l := by
  induction l generalizing n i blocks with
  | nil =>
    rw [joined_singleton, ← List.append_nil n.bytes, parseFrom_name n [] i i hi, parseFrom,
      Nat.add_sub_cancel_left, List.getLast_singleton, List.append_nil]
    change _ ↔ (i + n.strlen < intLimit ∧ n.strlen + 1 < intLimit) ∧ _
    split_ifs with h1 h2
    · simp only [h1, h2, true_and, and_true, Option.some.injEq, blocksFrom]
      exact eq_comm
    · simp [h2]
    · simp [h1]
  | cons m l ih =>
    have hlen : i + (joined (n :: m :: l)).length =
        i + n.strlen + 1 + (joined (m :: l)).length := by
      rw [joined_cons_cons, List.length_append, List.length_cons, CString.strlen]
      omega
    rw [hlen, joined_cons_cons, parseFrom_name n _ i i hi, parseFrom, if_pos rfl,
      List.getLast_cons_cons]
    split_ifs with h1 h2
    · rw [ih m _ _ h2, List.length_append, List.length_singleton, List.append_assoc]
      rfl
    · simp only [false_iff]
      omega
    · simp only [false_iff]
      omega

/-- A block with exactly the bytes of the name holds it if the byte after them was a NUL. -/
theorem holds_iff (n : HookedName) (rest : List UInt8) {size : ℕ} (hsize : n.strlen < size)
    (junk : ℕ → UInt8) :
    (⟨size, strncpy (n.bytes ++ rest) n.strlen, junk⟩ : Malloced).Holds n.toCString ↔
      junk n.strlen = 0 := by
  have hwritten : strncpy (n.bytes ++ rest) n.strlen = n.bytes := by
    simp [strncpy, CString.strlen]
  have hend : n.bytes.getD n.strlen (junk n.strlen) = junk n.strlen := by
    simp [CString.strlen]
  have hzero : n.bytes.getD n.strlen 0 = 0 := by simp [CString.strlen]
  rw [hwritten]
  constructor
  · rintro ⟨-, h⟩
    have hlast := h n.strlen le_rfl
    rwa [Malloced.byte, hend, hzero] at hlast
  · intro hjunk
    refine ⟨hsize, fun k hk => ?_⟩
    show n.bytes.getD k (junk k) = n.bytes.getD k 0
    rcases Nat.eq_or_lt_of_le hk with rfl | hk
    · rw [hend, hzero, hjunk]
    · have hk : k < n.bytes.length := hk
      simp [hk]

/-- A copy that goes on behind the name has the colon where the terminator belongs. -/
theorem not_holds_of_longer (n : HookedName) (rest : List UInt8) (size : ℕ) {len : ℕ}
    (hlen : n.strlen < len) (junk : ℕ → UInt8) :
    ¬ (⟨size, strncpy (n.bytes ++ colon :: rest) len, junk⟩ : Malloced).Holds n.toCString := by
  rintro ⟨-, h⟩
  have hcolon : (strncpy (n.bytes ++ colon :: rest) len).getD n.strlen (junk n.strlen) = colon := by
    obtain ⟨d, rfl⟩ := Nat.exists_eq_add_of_lt hlen
    have htake : (n.bytes ++ colon :: rest).take (n.strlen + d + 1) =
        n.bytes ++ colon :: rest.take d := by
      rw [Nat.add_assoc, CString.strlen, List.take_length_add_append, List.take_succ_cons]
    rw [strncpy, htake]
    simp [CString.strlen]
  have hlast := h n.strlen le_rfl
  rw [Malloced.byte, hcolon] at hlast
  simp [CString.strlen, colon] at hlast

theorem inside_blocksFrom (i k : ℕ) (n : HookedName) (l : List HookedName) :
    ∀ b ∈ blocksFrom junk s i k n l, b.written.length ≤ b.size := by
  induction l generalizing i k n with
  | nil => simp [blocksFrom]
  | cons m l ih =>
    simp only [blocksFrom, List.forall_mem_cons, length_strncpy]
    exact ⟨Nat.le_succ _, ih _ _ _⟩

/-- The blocks hold the names whenever they are split at all. -/
theorem exists_split_iff (n : HookedName) (l : List HookedName) :
    (∃ blocks, parseHookedFilenames junk (joined (n :: l)) = some blocks ∧ SplitExactly blocks (n :: l)) ↔
      FitsInt n l ∧ List.Forall₂ (fun b m => b.Holds m.toCString)
        (blocksFrom junk (joined (n :: l)) 0 0 n l) (n :: l) := by
  have hparse : ∀ blocks, parseHookedFilenames junk (joined (n :: l)) = some blocks ↔
      FitsInt n l ∧ blocks = blocksFrom junk (joined (n :: l)) 0 0 n l := by
    intro blocks
    have h : parseFrom junk (joined (n :: l)) (joined (n :: l)) 0 0 [] = some blocks ↔ _ :=
      parseFrom_names n l 0 [] blocks (by decide)
    simpa [parseHookedFilenames, FitsInt] using h
  constructor
  · rintro ⟨blocks, hb, hs⟩
    obtain ⟨hfit, rfl⟩ := (hparse blocks).mp hb
    exact ⟨hfit, hs.holds⟩
  · rintro ⟨hfit, hh⟩
    exact ⟨_, (hparse _).mpr ⟨hfit, rfl⟩, hh, inside_blocksFrom 0 0 n l⟩

end Split

/-- The names are split exactly if and only if there are at most two of them, they fit an `int`, and
each block happens to hold a NUL where its name ends. -/
theorem split_exactly_iff (junk : ℕ → ℕ → UInt8) (n : HookedName) (l : List HookedName) :
    (∃ blocks, parseHookedFilenames junk (joined (n :: l)) = some blocks ∧
      SplitExactly blocks (n :: l)) ↔
    l.length ≤ 1 ∧ FitsInt n l ∧ ∀ k m, (n :: l)[k]? = some m → junk k m.strlen = 0 := by
  rw [exists_split_iff]
  cases l with
  | nil =>
    have hn := holds_iff n [] (Nat.lt_succ_self _) (junk 0)
    rw [List.append_nil] at hn
    simp [blocksFrom, hn, List.getElem?_singleton]
  | cons m l =>
    have hdrop : (joined (n :: m :: l)).drop (0 + n.strlen + 1) = joined (m :: l) := by
      rw [joined_cons_cons, Nat.zero_add, CString.strlen, List.drop_length_add_append, List.drop_one,
        List.tail_cons]
    cases l with
    | nil =>
      have hblocks : blocksFrom junk (joined [n, m]) 0 0 n [m] =
          [⟨n.strlen + 1, strncpy (n.bytes ++ colon :: m.bytes) n.strlen, junk 0⟩,
            ⟨m.strlen + 1, strncpy (m.bytes ++ []) m.strlen, junk 1⟩] := by
        simp only [blocksFrom, hdrop]
        simp only [joined_singleton, joined_cons_cons, Nat.zero_add, List.drop_zero, List.append_nil]
      have hall : (∀ k x, [n, m][k]? = some x → junk k x.strlen = 0) ↔
          junk 0 n.strlen = 0 ∧ junk 1 m.strlen = 0 := by
        constructor
        · intro h
          exact ⟨h 0 n rfl, h 1 m rfl⟩
        · rintro ⟨h0, h1⟩ k x hx
          match k with
          | 0 => exact Option.some.inj hx ▸ h0
          | 1 => exact Option.some.inj hx ▸ h1
          | k + 2 => simp at hx
      rw [hall, hblocks, List.forall₂_cons, List.forall₂_cons, holds_iff n _ (Nat.lt_succ_self _),
        holds_iff m _ (Nat.lt_succ_self _)]
      simp
    | cons p l =>
      -- the copy of the second name starts behind the first one, and is longer than the name
      have hlonger : m.strlen < 0 + n.strlen + 1 + m.strlen := by omega
      have hm := not_holds_of_longer m (joined (p :: l)) (0 + n.strlen + 1 + m.strlen + 1) hlonger
        (junk 1)
      refine iff_of_false ?_ (by simp)
      rintro ⟨-, h⟩
      obtain ⟨-, h⟩ := List.forall₂_cons.mp h
      obtain ⟨h, -⟩ := List.forall₂_cons.mp h
      rw [hdrop, joined_cons_cons] at h
      exact hm h

def nameOf (b : UInt8) (h0 : b ≠ 0) (hcolon : b ≠ colon) : HookedName where
  bytes := [b]
  nul_free := by simpa using h0
  colon_free := by simpa using hcolon.symm

/-- `"a"`, `"b"` and `"c"`. -/
def threeNames : List HookedName :=
  [nameOf 97 (by decide) (by decide), nameOf 98 (by decide) (by decide),
    nameOf 99 (by decide) (by decide)]

/-- With zeroed memory `"a:b:c"` gives `"a"`, `"b:c"` and `"c"`; with other memory no terminator. -/
theorem three_names_not_split :
    (¬ ∃ blocks, parseHookedFilenames (fun _ _ => 0) (joined threeNames) = some blocks ∧
      SplitExactly blocks threeNames) ∧
    (parseHookedFilenames (fun _ _ => 0) (joined threeNames)).map (List.map Malloced.written) =
      some [[97], [98, 58, 99], [99]] ∧
    ¬ ∃ blocks, parseHookedFilenames (fun _ _ => 1) (joined (threeNames.take 1)) = some blocks ∧
      SplitExactly blocks (threeNames.take 1) := by
  refine ⟨fun h => ?_, by decide, fun h => ?_⟩
  · exact absurd ((split_exactly_iff _ _ _).mp h).1 (by decide)
  · exact absurd (((split_exactly_iff _ _ _).mp h).2.2 0 _ rfl) (by decide)

/-! ### `is_hooked_filename` -/

/-- The four bytes that are compared with `".sst"`. -/
def sstBytes (dir : CString) (filename : Path) : List UInt8 :=
  (List.range sstSuffix.length).map fun k => filename.byte (dir.strlen + sstFilenameLen + k)

/-- The places of the path that the comparisons with `HOOKED_ROCKSDB_DIR` read. -/
def dirReads (dir : CString) (filename : Path) : List ℕ :=
  List.range (strncmpRead dir.bytes filename.chars.bytes dir.strlen) ++
    if strncmp dir.bytes filename.chars.bytes dir.strlen = 0 then
      (List.range (strncmpRead sstSuffix (sstBytes dir filename) sstSuffix.length)).map fun k =>
        dir.strlen + sstFilenameLen + k
    else []

/-- The places of the path that `is_hooked_filename` reads. -/
def hookedReads (cfg : Config) (filename : Path) : List ℕ :=
  cfg.hookedFilenames.flatMap (fun name =>
      List.range (strncmpRead name.bytes filename.chars.bytes name.strlen)) ++
    match cfg.hookedRocksdbDir with
    | none => []
    | some dir => dirReads dir filename

/-- Whatever is behind the terminator, it is not read and the decision is the same. -/
structure DecidedByName (cfg : Config) (chars : CString) : Prop where
  within : ∀ beyond, ∀ k ∈ hookedReads cfg ⟨chars, beyond⟩, k ≤ chars.strlen
  same : ∀ beyond beyond', isHookedFilename cfg ⟨chars, beyond⟩ = isHookedFilename cfg ⟨chars, beyond'⟩

section Reads

variable {cfg : Config} {chars dir : CString}

theorem byte_strlen (filename : Path) : filename.byte filename.chars.strlen = 0 := by
  simp [Path.byte]

theorem byte_congr (chars : CString) (beyond beyond' : ℕ → UInt8) {k : ℕ} (h : k ≤ chars.strlen) :
    (Path.mk chars beyond).byte k = (Path.mk chars beyond').byte k := by
  rcases Nat.eq_or_lt_of_le h with rfl | h
  · exact (byte_strlen ⟨chars, beyond⟩).trans (byte_strlen ⟨chars, beyond'⟩).symm
  · simp [Path.byte, h]

theorem sstBytes_getD (dir : CString) (filename : Path) (k : ℕ) : (sstBytes dir filename).getD k 0 =
    if k < sstSuffix.length then filename.byte (dir.strlen + sstFilenameLen + k) else 0 := by
  rw [sstBytes]
  split_ifs with h
  · simp [h]
  · simp [Nat.le_of_not_lt h]

theorem nameRead_le (s : CString) (filename : Path) (n : ℕ) :
    strncmpRead s.bytes filename.chars.bytes n ≤ filename.chars.strlen + 1 := by
  apply strncmpRead_le
  simp [CString.strlen]

/-- The comparison with the suffix ends at the terminator, if it starts before it. -/
theorem sstRead_le (filename : Path) (h : dir.strlen + sstFilenameLen ≤ filename.chars.strlen) {k : ℕ}
    (hk : k < strncmpRead sstSuffix (sstBytes dir filename) sstSuffix.length) :
    dir.strlen + sstFilenameLen + k ≤ filename.chars.strlen := by
  obtain ⟨e, he⟩ := Nat.exists_eq_add_of_le h
  have hend : (sstBytes dir filename).getD e 0 = 0 := by
    rw [sstBytes_getD, ← he, byte_strlen, ite_self]
  have hle := strncmpRead_le hend sstSuffix sstSuffix.length
  omega

theorem mem_hookedReads {filename : Path} {k : ℕ} (hk : k ∈ hookedReads cfg filename) :
    k ≤ filename.chars.strlen ∨ ∃ dir j, cfg.hookedRocksdbDir = some dir ∧
      dir.IsPrefix filename.chars ∧ k = dir.strlen + sstFilenameLen + j ∧
      j < strncmpRead sstSuffix (sstBytes dir filename) sstSuffix.length := by
  rw [hookedReads, List.mem_append] at hk
  rcases hk with hk | hk
  · obtain ⟨name, -, hk⟩ := List.mem_flatMap.mp hk
    have hle := nameRead_le name filename name.strlen
    have hlt := List.mem_range.mp hk
    left
    omega
  · cases hdir : cfg.hookedRocksdbDir with
    | none => simp [hdir] at hk
    | some dir =>
      simp only [hdir, dirReads, List.mem_append] at hk
      rcases hk with hk | hk
      · have hle := nameRead_le dir filename dir.strlen
        have hlt := List.mem_range.mp hk
        left
        omega
      · right
        split_ifs at hk with hprefix
        · obtain ⟨j, hj, rfl⟩ := List.mem_map.mp hk
          exact ⟨dir, j, rfl, (strncmp_eq_zero _ _).mp hprefix, rfl, List.mem_range.mp hj⟩
        · exact absurd hk List.not_mem_nil

/-- The first byte behind the directory and seven more is read whenever the path starts with it. -/
theorem mem_hookedReads_of_starts {filename : Path} (hdir : cfg.hookedRocksdbDir = some dir)
    (h : dir.IsPrefix filename.chars) : dir.strlen + sstFilenameLen ∈ hookedReads cfg filename := by
  have hpos : 0 < strncmpRead sstSuffix (sstBytes dir filename) sstSuffix.length := by
    rw [show sstSuffix.length = 3 + 1 from rfl, strncmpRead]
    split_ifs <;> omega
  simp only [hookedReads, hdir, dirReads, List.mem_append, if_pos ((strncmp_eq_zero _ _).mpr h)]
  refine Or.inr (Or.inr (List.mem_map.mpr ⟨0, List.mem_range.mpr hpos, rfl⟩))

/-- The decision uses the memory behind the terminator only through the suffix. -/
theorem isHooked_congr {beyond beyond' : ℕ → UInt8}
    (h : ∀ dir, cfg.hookedRocksdbDir = some dir → dir.IsPrefix chars →
      strncmp sstSuffix (sstBytes dir ⟨chars, beyond⟩) sstSuffix.length =
        strncmp sstSuffix (sstBytes dir ⟨chars, beyond'⟩) sstSuffix.length) :
    isHookedFilename cfg ⟨chars, beyond⟩ = isHookedFilename cfg ⟨chars, beyond'⟩ := by
  rw [isHookedFilename, isHookedFilename]
  congr 1
  cases hdir : cfg.hookedRocksdbDir with
  | none => rfl
  | some dir =>
    by_cases hprefix : dir.IsPrefix chars
    · have hsst := h dir hdir hprefix
      rw [sstBytes, sstBytes] at hsst
      simp only [hsst]
    · have hne : strncmp dir.bytes chars.bytes dir.strlen ≠ 0 := fun h0 =>
        hprefix ((strncmp_eq_zero _ _).mp h0)
      simp [hne]

end Reads

/-- The decision depends on the name only if and only if a name that starts with
`HOOKED_ROCKSDB_DIR` goes on for at least seven bytes. -/
theorem decided_by_name_iff (cfg : Config) (chars : CString) : DecidedByName cfg chars ↔
    ∀ dir, cfg.hookedRocksdbDir = some dir → dir.IsPrefix chars →
      dir.strlen + sstFilenameLen ≤ chars.strlen := by
  constructor
  · intro h dir hdir hprefix
    exact h.within (fun _ => 0) _ (mem_hookedReads_of_starts hdir hprefix)
  · intro h
    constructor
    · intro beyond k hk
      rcases mem_hookedReads hk with hk | ⟨dir, j, hdir, hprefix, rfl, hj⟩
      · exact hk
      · exact sstRead_le _ (h dir hdir hprefix) hj
    · intro beyond beyond'
      apply isHooked_congr
      intro dir hdir hprefix
      apply strncmp_congr
      intro k hk
      rw [sstBytes_getD, sstBytes_getD, byte_congr chars beyond beyond'
        (sstRead_le ⟨chars, beyond⟩ (h dir hdir hprefix) hk)]

/-- `"d"`. -/
def nameD : CString := ⟨[100], by simp⟩

/-- With `HOOKED_ROCKSDB_DIR=d`, whether the path `"d"` is hooked depends on what is behind it. -/
theorem dir_itself_not_decided :
    ¬ DecidedByName ⟨[], some nameD⟩ nameD ∧
    isHookedFilename ⟨[], some nameD⟩ ⟨nameD, fun k => sstSuffix.getD (k - 6) 0⟩ = true ∧
    isHookedFilename ⟨[], some nameD⟩ ⟨nameD, fun _ => 0⟩ = false := by
  refine ⟨fun h => ?_, by decide, by decide⟩
  exact absurd ((decided_by_name_iff _ _).mp h nameD rfl (isPrefix_refl nameD)) (by decide)

end Pthabt.Hook
