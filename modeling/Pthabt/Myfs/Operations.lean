import Pthabt.Lib.Run
import Pthabt.Myfs.Blocks

/-! What each operation of myfs does to slots, flags and blocks, one lemma set for each. -/

namespace Pthabt.Myfs

open Lib

variable {N : ℕ}

/-! ### Unlink -/

theorem tryUnlink_eq (s : Fs N) (fd : ℕ) :
    _myfsTryUnlink s fd =
      if (s.states fd).refCount = 0 then _myfsUnlink s fd
      else s.setState fd
        { s.states fd with flags := { (s.states fd).flags with unlinked := true } } := by
  simp only [_myfsTryUnlink, Fs.setState_self]
  split_ifs with h
  · simp [_myfsUnlink, Fs.setState]
  · rfl

/-- `myfs_unlink filename` releases slot `i`. -/
def Released (s : Fs N) (filename : CString) (i : ℕ) : Prop :=
  nameMatches s.sb filename i ∧ (s.states i).refCount = 0

instance (s : Fs N) (filename : CString) (i : ℕ) : Decidable (Released s filename i) :=
  inferInstanceAs (Decidable (_ ∧ _))

theorem tryUnlink_file (s : Fs N) (fd i : ℕ) :
    (_myfsTryUnlink s fd).sb.file i =
      if i = fd ∧ (s.states fd).refCount = 0 then clearFile (s.sb.file fd) else s.sb.file i := by
  rw [tryUnlink_eq]
  by_cases h : (s.states fd).refCount = 0
  · rw [if_pos h]
    by_cases hi : i = fd
    · subst hi; rw [if_pos ⟨rfl, h⟩, unlink_file_self]
    · rw [if_neg (fun hc => hi hc.1), unlink_file_of_ne s hi]
  · rw [if_neg h, if_neg (fun hc => h hc.2)]
    rfl

theorem tryUnlink_states_of_ne (s : Fs N) {fd i : ℕ} (h : i ≠ fd) :
    (_myfsTryUnlink s fd).states i = s.states i := by
  rw [tryUnlink_eq]
  split_ifs
  · exact unlink_states_of_ne s h
  · exact Fs.setState_of_ne s _ h

theorem tryUnlink_states_self (s : Fs N) (fd : ℕ) :
    (_myfsTryUnlink s fd).states fd =
      if (s.states fd).refCount = 0 then ⟨⟨false, false⟩, 0⟩
      else { s.states fd with flags := { (s.states fd).flags with unlinked := true } } := by
  rw [tryUnlink_eq]
  split_ifs
  · exact unlink_states_self s fd
  · exact Fs.setState_self s fd _

theorem BlockInv.tryUnlink {s : Fs N} (h : BlockInv s.sb) {fd : ℕ} (hfd : fd < maxFiles) :
    BlockInv (_myfsTryUnlink s fd).sb := by
  rw [tryUnlink_eq]
  split_ifs
  · exact h.unlink hfd
  · exact h

/-- The ring after one slot: what it held, and the entries of a released slot. -/
theorem tryUnlink_inactive {s : Fs N} (h : BlockInv s.sb) {fd : ℕ} (hfd : fd < maxFiles) :
    inactiveBlock ∈ (_myfsTryUnlink s fd).sb.free.entries ↔
      inactiveBlock ∈ s.sb.free.entries ∨
        (s.states fd).refCount = 0 ∧ Holed (s.sb.file fd) := by
  rw [tryUnlink_eq]
  split_ifs with hr
  · rw [(unlink_entries h hfd).2, Multiset.mem_add, inactive_mem_heldBlocks]
    simp [hr, Holed]
  · simp [hr]

theorem unlinkScan_succ (s : Fs N) (filename : CString) (k : ℕ) :
    unlinkScan s filename (k + 1) =
      if nameMatches (unlinkScan s filename k).sb filename k
      then _myfsTryUnlink (unlinkScan s filename k) k else unlinkScan s filename k := rfl

/-- A slot the loop has not visited yet is as it was. -/
theorem unlinkScan_later (s : Fs N) (filename : CString) :
    ∀ {k i : ℕ}, k ≤ i → (unlinkScan s filename k).sb.file i = s.sb.file i ∧
      (unlinkScan s filename k).states i = s.states i
  | 0, _, _ => ⟨rfl, rfl⟩
  | k + 1, i, h => by
    obtain ⟨hf, hs⟩ := unlinkScan_later s filename (k := k) (i := i) (by omega)
    have hne : i ≠ k := by omega
    rw [unlinkScan_succ]
    split_ifs
    · rw [tryUnlink_file, if_neg (fun hc => hne hc.1), tryUnlink_states_of_ne _ hne]
      exact ⟨hf, hs⟩
    · exact ⟨hf, hs⟩

theorem nameMatches_congr {sb sb' : Superblock N} (filename : CString) {i : ℕ}
    (h : sb.file i = sb'.file i) : nameMatches sb filename i ↔ nameMatches sb' filename i := by
  unfold nameMatches
  rw [h]

theorem released_unlinkScan (s : Fs N) (filename : CString) (k : ℕ) :
    Released (unlinkScan s filename k) filename k ↔ Released s filename k := by
  obtain ⟨hf, hs⟩ := unlinkScan_later s filename (le_refl k)
  unfold Released
  rw [nameMatches_congr filename hf, hs]

/-- A slot after the loop visited it. -/
theorem unlinkScan_file (s : Fs N) (filename : CString) :
    ∀ {k i : ℕ}, i < k → (unlinkScan s filename k).sb.file i =
      if Released s filename i then clearFile (s.sb.file i) else s.sb.file i
  | 0, _, h => absurd h (Nat.not_lt_zero _)
  | k + 1, i, h => by
    obtain ⟨hf, hs⟩ := unlinkScan_later s filename (le_refl k)
    rw [unlinkScan_succ]
    by_cases hi : i = k
    · subst hi
      have hrel := released_unlinkScan s filename i
      by_cases hm : nameMatches (unlinkScan s filename i).sb filename i
      · rw [if_pos hm, tryUnlink_file]
        simp only [Released, hm, true_and] at hrel
        rw [hf]
        simp only [true_and, hrel]
        rfl
      · rw [if_neg hm, if_neg (fun hr => hm (hrel.mpr hr).1), hf]
    · rw [← unlinkScan_file s filename (k := k) (i := i) (by omega)]
      split_ifs
      · rw [tryUnlink_file, if_neg (fun hc => hi hc.1)]
      · rfl

theorem unlinkScan_states (s : Fs N) (filename : CString) :
    ∀ {k i : ℕ}, i < k → (unlinkScan s filename k).states i =
      if nameMatches s.sb filename i then
        if (s.states i).refCount = 0 then ⟨⟨false, false⟩, 0⟩
        else { s.states i with flags := { (s.states i).flags with unlinked := true } }
      else s.states i
  | 0, _, h => absurd h (Nat.not_lt_zero _)
  | k + 1, i, h => by
    obtain ⟨hf, hs⟩ := unlinkScan_later s filename (le_refl k)
    rw [unlinkScan_succ]
    by_cases hi : i = k
    · subst hi
      have hm := nameMatches_congr filename hf
      by_cases hm' : nameMatches s.sb filename i
      · rw [if_pos (hm.mpr hm'), if_pos hm', tryUnlink_states_self, hs]
      · rw [if_neg (fun hc => hm' (hm.mp hc)), if_neg hm', hs]
    · rw [← unlinkScan_states s filename (k := k) (i := i) (by omega)]
      split_ifs
      · exact tryUnlink_states_of_ne _ hi
      · rfl

theorem BlockInv.unlinkScan {s : Fs N} (h : BlockInv s.sb) (filename : CString) :
    ∀ {k : ℕ}, k ≤ maxFiles → BlockInv (unlinkScan s filename k).sb
  | 0, _ => h
  | k + 1, hk => by
    have ih := h.unlinkScan filename (k := k) (by omega)
    rw [unlinkScan_succ]
    split_ifs
    · exact ih.tryUnlink (by omega)
    · exact ih

theorem unlinkScan_inactive {s : Fs N} (h : BlockInv s.sb) (filename : CString) :
    ∀ {k : ℕ}, k ≤ maxFiles →
      (inactiveBlock ∈ (unlinkScan s filename k).sb.free.entries ↔
        inactiveBlock ∈ s.sb.free.entries ∨
          ∃ i < k, Released s filename i ∧ Holed (s.sb.file i))
  | 0, _ => by simp [Myfs.unlinkScan]
  | k + 1, hk => by
    obtain ⟨hf, hs⟩ := unlinkScan_later s filename (le_refl k)
    have ih := unlinkScan_inactive h filename (k := k) (by omega)
    have hinv := h.unlinkScan filename (k := k) (by omega)
    have hm := nameMatches_congr filename hf
    have hlast : (∃ i < k + 1, Released s filename i ∧ Holed (s.sb.file i)) ↔
        (∃ i < k, Released s filename i ∧ Holed (s.sb.file i)) ∨
          Released s filename k ∧ Holed (s.sb.file k) := by
      simp only [Nat.lt_succ_iff_lt_or_eq]
      grind
    rw [unlinkScan_succ, hlast, ← or_assoc, ← ih]
    split_ifs with hmk
    · rw [tryUnlink_inactive hinv (by omega), hs, hf]
      simp only [Released, hm.mp hmk, true_and]
    · have : ¬ Released s filename k := fun hr => hmk (hm.mpr hr.1)
      simp [this]

theorem BlockInv.myfsUnlink {s : Fs N} (h : BlockInv s.sb) (filename : CString) :
    BlockInv (myfsUnlink s filename).sb := h.unlinkScan filename le_rfl

theorem myfsUnlink_file (s : Fs N) (filename : CString) {i : ℕ} (hi : i < maxFiles) :
    (myfsUnlink s filename).sb.file i =
      if Released s filename i then clearFile (s.sb.file i) else s.sb.file i :=
  unlinkScan_file s filename hi

theorem myfsUnlink_states (s : Fs N) (filename : CString) {i : ℕ} (hi : i < maxFiles) :
    (myfsUnlink s filename).states i =
      if nameMatches s.sb filename i then
        if (s.states i).refCount = 0 then ⟨⟨false, false⟩, 0⟩
        else { s.states i with flags := { (s.states i).flags with unlinked := true } }
      else s.states i :=
  unlinkScan_states s filename hi

theorem nameMatches_iff (sb : Superblock N) (filename : CString) (i : ℕ) :
    nameMatches sb filename i ↔ filename.IsPrefix (sb.file i).name :=
  CString.strncmp_eq_zero _ _

/-! ### Open -/

theorem openScan_eq (sb : Superblock N) (filename : CString) (is : List ℕ) (e : Option ℕ) :
    openScan sb filename is e =
      match is.find? (fun i => nameMatches sb filename i) with
      | some i => .inl i
      | none => .inr (e.or (is.find? fun i => (sb.file i).name = CString.empty)) := by
  induction is generalizing e with
  | nil => simp [openScan]
  | cons i is ih =>
    by_cases hm : nameMatches sb filename i
    · simp [openScan, hm]
    · simp only [openScan, hm, ↓reduceIte, ih, decide_false, Bool.false_eq_true, not_false_eq_true,
        List.find?_cons_of_neg]
      cases is.find? (fun i => nameMatches sb filename i) with
      | some k => rfl
      | none =>
        cases e with
        | some k => simp
        | none =>
          by_cases he : (sb.file i).name = CString.empty <;> simp [he]

/-- The slot that `filename` opens when it exists: the first one it matches. -/
def FirstMatch (sb : Superblock N) (filename : CString) (i : ℕ) : Prop :=
  i < maxFiles ∧ nameMatches sb filename i ∧ ∀ k < i, ¬ nameMatches sb filename k

/-- The slot that a new file takes. -/
def FirstEmpty (sb : Superblock N) (i : ℕ) : Prop :=
  i < maxFiles ∧ (sb.file i).name = CString.empty ∧ ∀ k < i, (sb.file k).name ≠ CString.empty

theorem FirstEmpty.unique {sb : Superblock N} {i k : ℕ} (hi : FirstEmpty sb i)
    (hk : FirstEmpty sb k) : i = k := by
  rcases Nat.lt_trichotomy i k with h | h | h
  · exact absurd hi.2.1 (hk.2.2 i h)
  · exact h
  · exact absurd hk.2.1 (hi.2.2 k h)

def NoMatch (sb : Superblock N) (filename : CString) : Prop :=
  ∀ k < maxFiles, ¬ nameMatches sb filename k

/-- `myfs_open` of a file that exists. -/
def openFound (s : Fs N) (i : ℕ) : Fs N := s.setState i { s.states i with flags := fileOpened }

/-- `myfs_open` of a new file. -/
def openNew (s : Fs N) (filename : CString) (i : ℕ) : Fs N :=
  { s with sb := s.sb.setFile i { s.sb.file i with name := filename, nBlock := 0 } }.setState
    i { s.states i with flags := fileOpened }

/-- A result of `myfs_open`, and what it did to get there. -/
def OpenResult (s : Fs N) (filename : CString) (s' : Fs N) (i : ℕ) : Prop :=
  (FirstMatch s.sb filename i ∧ s' = openFound s i) ∨
  (NoMatch s.sb filename ∧ FirstEmpty s.sb i ∧ filename.strlen < maxNamelen ∧
    s' = openNew s filename i)

theorem firstMatch_find {sb : Superblock N} {filename : CString} {i : ℕ} :
    (List.range maxFiles).find? (fun i => nameMatches sb filename i) = some i ↔
      FirstMatch sb filename i := by
  simp only [List.find?_range_eq_some, decide_eq_true_eq, List.mem_range, Bool.not_eq_true',
    decide_eq_false_iff_not, FirstMatch]
  tauto

theorem firstEmpty_find {sb : Superblock N} {i : ℕ} :
    (List.range maxFiles).find? (fun i => decide ((sb.file i).name = CString.empty)) = some i ↔
      FirstEmpty sb i := by
  simp only [List.find?_range_eq_some, decide_eq_true_eq, List.mem_range, Bool.not_eq_true',
    decide_eq_false_iff_not, FirstEmpty]
  tauto

theorem noMatch_find {sb : Superblock N} {filename : CString} :
    (List.range maxFiles).find? (fun i => decide (nameMatches sb filename i)) = none ↔
      NoMatch sb filename := by
  simp [NoMatch]

theorem FirstMatch.not_noMatch {sb : Superblock N} {filename : CString} {i : ℕ}
    (h : FirstMatch sb filename i) : ¬ NoMatch sb filename := fun hn => hn i h.1 h.2.1

theorem FirstMatch.unique {sb : Superblock N} {filename : CString} {i k : ℕ}
    (hi : FirstMatch sb filename i) (hk : FirstMatch sb filename k) : i = k := by
  rcases Nat.lt_trichotomy i k with h | h | h
  · exact absurd hi.2.1 (hk.2.2 i h)
  · exact h
  · exact absurd hk.2.1 (hi.2.2 k h)

/-- `myfs_open` either opens the first match or, with none, takes the first empty slot. -/
theorem myfsOpen_eq_some {s s' : Fs N} {filename : CString} {i : ℕ} :
    myfsOpen s filename = some (s', i) ↔ OpenResult s filename s' i := by
  unfold myfsOpen
  rw [openScan_eq]
  cases hm : (List.range maxFiles).find? (fun i => nameMatches s.sb filename i) with
  | some k =>
    have hk := firstMatch_find.mp hm
    simp only [Option.some.injEq, Prod.mk.injEq, OpenResult, hk.not_noMatch, false_and, or_false]
    constructor
    · rintro ⟨rfl, rfl⟩
      exact ⟨hk, rfl⟩
    · rintro ⟨hi, rfl⟩
      obtain rfl := hk.unique hi
      exact ⟨rfl, rfl⟩
  | none =>
    have hno := noMatch_find.mp hm
    have hnot : ¬ FirstMatch s.sb filename i := fun h => h.not_noMatch hno
    simp only [Option.none_or, OpenResult, hno, hnot, false_and, false_or, true_and]
    cases he : (List.range maxFiles).find? (fun i => (s.sb.file i).name = CString.empty) with
    | none =>
      simp only [reduceCtorEq, false_iff]
      rintro ⟨h, -⟩
      rw [firstEmpty_find.mpr h] at he
      cases he
    | some k =>
      have hk := firstEmpty_find.mp he
      have hu : FirstEmpty s.sb i ↔ k = i := by
        rw [← firstEmpty_find, he, Option.some.injEq]
      split_ifs with hl
      · simp only [Option.some.injEq, Prod.mk.injEq, hu, hl, true_and]
        constructor
        · rintro ⟨rfl, rfl⟩
          exact ⟨rfl, rfl⟩
        · rintro ⟨rfl, rfl⟩
          exact ⟨rfl, rfl⟩
      · simp [hl]

/-- The name is in the directory, or there is room for it. -/
def CanOpen (sb : Superblock N) (filename : CString) : Prop :=
  (∃ i, FirstMatch sb filename i) ∨ (∃ i, FirstEmpty sb i) ∧ filename.strlen < maxNamelen

theorem exists_firstMatch {sb : Superblock N} {filename : CString} (h : ¬ NoMatch sb filename) :
    ∃ i, FirstMatch sb filename i := by
  cases hm : (List.range maxFiles).find? (fun i => nameMatches sb filename i) with
  | some k => exact ⟨k, firstMatch_find.mp hm⟩
  | none => exact absurd (noMatch_find.mp hm) h

theorem myfsOpen_isSome {s : Fs N} {filename : CString} :
    (∃ s' i, myfsOpen s filename = some (s', i)) ↔ CanOpen s.sb filename := by
  simp only [myfsOpen_eq_some]
  constructor
  · rintro ⟨s', i, ⟨h, -⟩ | ⟨-, h, hl, -⟩⟩
    · exact Or.inl ⟨i, h⟩
    · exact Or.inr ⟨⟨i, h⟩, hl⟩
  · intro h
    by_cases hno : NoMatch s.sb filename
    · rcases h with ⟨i, hi⟩ | ⟨⟨i, hi⟩, hl⟩
      · exact absurd hno hi.not_noMatch
      · exact ⟨_, i, Or.inr ⟨hno, hi, hl, rfl⟩⟩
    · obtain ⟨i, hi⟩ := exists_firstMatch hno
      exact ⟨_, i, Or.inl ⟨hi, rfl⟩⟩

instance decidableCanOpen (sb : Superblock N) (filename : CString) : Decidable (CanOpen sb filename) :=
  decidable_of_iff (myfsOpen ⟨sb, fun _ => ⟨⟨false, false⟩, 0⟩⟩ filename).isSome <| by
    rw [← myfsOpen_isSome (s := ⟨sb, _⟩), Option.isSome_iff_exists, Prod.exists]

/-- In a directory without files, a new file takes the first slot. -/
theorem myfsOpen_first {s : Fs N} {filename : CString}
    (hempty : ∀ i < maxFiles, (s.sb.file i).name = CString.empty) (hne : filename ≠ CString.empty)
    (hlen : filename.strlen < maxNamelen) :
    myfsOpen s filename = some (openNew s filename 0, 0) := by
  have hpos : 0 < maxFiles := by simp [maxFiles]
  refine myfsOpen_eq_some.mpr (Or.inr ⟨?_, ⟨hpos, hempty 0 hpos, by simp⟩, hlen, rfl⟩)
  intro k hk hm
  rw [nameMatches_iff, hempty k hk] at hm
  exact CString.not_isPrefix_empty hne hm

theorem openNew_file (s : Fs N) (filename : CString) (i : ℕ) :
    (openNew s filename i).sb.file =
      Function.update s.sb.file i { s.sb.file i with name := filename, nBlock := 0 } := rfl

/-- `myfs_open` moves no block: a new file drops only its slot's count. -/
theorem BlockInv.openResult {s s' : Fs N} (h : BlockInv s.sb) {filename : CString} {i : ℕ}
    (ho : OpenResult s filename s' i) : BlockInv s'.sb := by
  rcases ho with ⟨-, rfl⟩ | ⟨-, hi, -, rfl⟩
  · exact h
  · have hmapped := mappedBlocks_update hi.1 (openNew_file s filename i)
    have hcounted := countedBlocks_update hi.1 (openNew_file s filename i)
    have hfree : (openNew s filename i).sb.free = s.sb.free := rfl
    refine ⟨?_, ?_, ?_⟩
    · rw [hfree, ← h.live]
      congr 1
      exact add_right_cancel hmapped
    · have := h.fits
      rw [hfree]
      dsimp only at hcounted
      omega
    · intro k hk
      rw [openNew_file]
      by_cases he : k = i
      · subst he
        rw [Function.update_self]
        exact Nat.zero_le _
      · rw [Function.update_of_ne he]
        exact h.nBlock_le k hk

theorem openResult_free {s s' : Fs N} {filename : CString} {i : ℕ}
    (ho : OpenResult s filename s' i) : s'.sb.free = s.sb.free := by
  rcases ho with ⟨-, rfl⟩ | ⟨-, -, -, rfl⟩ <;> rfl

/-! ### Allocation -/

theorem mapBlock_of_mapped {sb : Superblock N} {i b : ℕ}
    (h : (sb.file i).block b ≠ inactiveBlock) : mapBlock sb i b = sb := if_neg h

/-- A slot with one more index mapped to the ring's next block. -/
def mapFile (sb : Superblock N) (i b : ℕ) : File :=
  { sb.file i with
    block := Function.update (sb.file i).block b (sb.free.cell sb.free.rp)
    nBlock := (sb.file i).nBlock + 1 }

theorem mapBlock_free {sb : Superblock N} {i b : ℕ}
    (h : (sb.file i).block b = inactiveBlock) : (mapBlock sb i b).free = sb.free.pop := by
  simp [mapBlock, h]

theorem mapBlock_file {sb : Superblock N} {i b : ℕ} (h : (sb.file i).block b = inactiveBlock) :
    (mapBlock sb i b).file = Function.update sb.file i (mapFile sb i b) := by
  simp [mapBlock, h, Superblock.setFile, mapFile]

theorem mapBlock_file_of_ne (sb : Superblock N) {i b k : ℕ} (h : k ≠ i) :
    (mapBlock sb i b).file k = sb.file k := by
  by_cases hm : (sb.file i).block b = inactiveBlock
  · rw [mapBlock_file hm, Function.update_of_ne h]
  · rw [mapBlock_of_mapped hm]

/-- The file whose next index was mapped. -/
theorem mapBlock_nBlock {sb : Superblock N} {i b : ℕ} (h : (sb.file i).block b = inactiveBlock) :
    ((mapBlock sb i b).file i).nBlock = (sb.file i).nBlock + 1 := by
  rw [mapBlock_file h, Function.update_self]
  rfl

theorem mapBlock_nBlock_le (sb : Superblock N) (i b k : ℕ) :
    (sb.file k).nBlock ≤ ((mapBlock sb i b).file k).nBlock := by
  by_cases hk : k = i
  · subst hk
    by_cases hm : (sb.file k).block b = inactiveBlock
    · rw [mapBlock_nBlock hm]
      exact Nat.le_succ _
    · rw [mapBlock_of_mapped hm]
  · rw [mapBlock_file_of_ne sb hk]

theorem mapBlock_block_of_ne (sb : Superblock N) {i b k j : ℕ} (hne : ¬ (k = i ∧ j = b)) :
    ((mapBlock sb i b).file k).block j = (sb.file k).block j := by
  by_cases hk : k = i
  · subst hk
    by_cases hm : (sb.file k).block b = inactiveBlock
    · have hj : j ≠ b := fun hj => hne ⟨rfl, hj⟩
      rw [mapBlock_file hm, Function.update_self]
      exact Function.update_of_ne hj _ _
    · rw [mapBlock_of_mapped hm]
  · rw [mapBlock_file_of_ne sb hk]

theorem mapBlock_name (sb : Superblock N) (i b k : ℕ) :
    ((mapBlock sb i b).file k).name = (sb.file k).name := by
  by_cases hk : k = i
  · subst hk
    by_cases hm : (sb.file k).block b = inactiveBlock
    · rw [mapBlock_file hm, Function.update_self]
      rfl
    · rw [mapBlock_of_mapped hm]
  · rw [mapBlock_file_of_ne sb hk]

/-- The mapped blocks of every file are its first `n_block`. -/
def Dense (sb : Superblock N) : Prop :=
  ∀ i < maxFiles, ∀ j < maxBlocksPerFile,
    (sb.file i).block j ≠ inactiveBlock ↔ j < (sb.file i).nBlock

/-- The table of a dense file after a write that skips no block. -/
theorem mapBlock_dense {sb : Superblock N} (h : Dense sb) {i b : ℕ} (hi : i < maxFiles)
    (hb : b < maxBlocksPerFile) (hle : b ≤ (sb.file i).nBlock)
    (hok : ((mapBlock sb i b).file i).block b ≠ inactiveBlock) :
    Dense (mapBlock sb i b) ∧ b < ((mapBlock sb i b).file i).nBlock := by
  by_cases hm : (sb.file i).block b = inactiveBlock
  · -- the block is the one after the last
    have hge : ¬ b < (sb.file i).nBlock := fun hlt => (h i hi b hb).mpr hlt hm
    have hn := mapBlock_nBlock hm
    refine ⟨fun k hk j hj => ?_, by omega⟩
    by_cases hkb : k = i ∧ j = b
    · obtain ⟨rfl, rfl⟩ := hkb
      exact iff_of_true hok (by omega)
    · rw [mapBlock_block_of_ne sb hkb, h k hk j hj]
      by_cases hki : k = i
      · subst hki
        have hjb : j ≠ b := fun hjb => hkb ⟨rfl, hjb⟩
        omega
      · rw [mapBlock_file_of_ne sb hki]
  · rw [mapBlock_of_mapped hm]
    exact ⟨h, (h i hi b hb).mp hm⟩

/-- A write that skips a block leaves a hole below the block it maps. -/
theorem mapBlock_not_dense {sb : Superblock N} (h : Dense sb) {i b : ℕ} (hi : i < maxFiles)
    (hb : b < maxBlocksPerFile) (hlt : (sb.file i).nBlock < b)
    (hok : ((mapBlock sb i b).file i).block b ≠ inactiveBlock) : ¬ Dense (mapBlock sb i b) := by
  intro hd
  have hm : (sb.file i).block b = inactiveBlock := by
    by_contra hm
    have := (h i hi b hb).mp hm
    omega
  have hj := (hd i hi b hb).mp hok
  rw [mapBlock_nBlock hm] at hj
  omega

/-- Allocation from a ring that is not empty, when the assertion after it holds. -/
theorem BlockInv.mapBlock {sb : Superblock N} (h : BlockInv sb) {i b : ℕ} (hi : i < maxFiles)
    (hb : b < maxBlocksPerFile)
    (hring : (sb.file i).block b = inactiveBlock → sb.free.rp ≠ sb.free.wp)
    (hok : ((mapBlock sb i b).file i).block b ≠ inactiveBlock) : BlockInv (mapBlock sb i b) := by
  by_cases hm : (sb.file i).block b = inactiveBlock
  · have hne := hring hm
    rw [mapBlock_file hm, Function.update_self] at hok
    simp only [mapFile, Function.update_self] at hok
    have hfb := fileBlocks_update (f := sb.file i) hb (sb.free.cell sb.free.rp)
      ((sb.file i).nBlock + 1)
    rw [hm, live_inactive, add_zero, live_of_ne hok] at hfb
    change fileBlocks (mapFile sb i b) = _ at hfb
    have hmapped := mappedBlocks_update hi (mapBlock_file hm)
    have hcounted := countedBlocks_update hi (mapBlock_file hm)
    have hsize := sb.free.size_pop hne
    refine ⟨?_, ?_, ?_⟩
    · rw [hfb, ← add_assoc, add_right_comm] at hmapped
      rw [mapBlock_free hm, add_right_cancel hmapped, ← h.live, sb.free.entries_pop hne,
        Multiset.filter_cons_of_pos (p := (· ≠ inactiveBlock)) _ hok, ← Multiset.singleton_add,
        add_comm (mappedBlocks sb), ← add_assoc, add_comm (Multiset.filter _ _)]
    · have := h.fits
      rw [mapBlock_free hm]
      simp only [mapFile] at hcounted
      omega
    · intro k hk
      rw [mapBlock_file hm]
      by_cases he : k = i
      · subst he
        rw [Function.update_self, hfb, Multiset.card_add, Multiset.card_singleton]
        exact Nat.add_le_add_right (h.nBlock_le k hk) 1
      · rw [Function.update_of_ne he]
        exact h.nBlock_le k hk
  · rw [mapBlock_of_mapped hm]
    exact h

/-- An offset inside the block table has the index the source means. -/
theorem iBlock_of_lt {offset : ℕ} (h : offset < maxBlocksPerFile * blockSize) :
    iBlock offset = offset / blockSize ∧ iBlock offset < maxBlocksPerFile := by
  have hb : offset / blockSize < maxBlocksPerFile := by
    rw [Nat.div_lt_iff_lt_mul (by simp [blockSize])]
    exact h
  have hmax : maxBlocksPerFile = 131072 := by simp [maxBlocksPerFile]
  unfold iBlock
  rw [Nat.mod_eq_of_lt (by omega)]
  exact ⟨rfl, hb⟩

/-- A call for writing at an index of the table. -/
theorem myfsGetLba_write (sb : Superblock N) (i : ℕ) {offset : ℕ}
    (h : iBlock offset < maxBlocksPerFile) :
    myfsGetLba sb i offset true =
      some (mapBlock sb i (iBlock offset),
        if ((mapBlock sb i (iBlock offset)).file i).block (iBlock offset) = inactiveBlock then none
        else some (lbaOf (((mapBlock sb i (iBlock offset)).file i).block (iBlock offset)) offset)) := by
  rw [myfsGetLba, if_pos h]
  simp only [↓reduceIte]

end Pthabt.Myfs
