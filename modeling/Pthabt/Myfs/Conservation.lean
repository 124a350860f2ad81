import Pthabt.Myfs.Operations

/-! Conservation of blocks over runs of `myfs_open`, `myfs_get_lba(i, off, 1)` and
`myfs_unlink` from a fresh superblock. The ring and the block tables hold every
block number once along a run exactly when no open overruns the directory and no
file is released while an index below its `n_block` is unmapped: the release
stores `inactiveBlock` in the ring for such an index and forgets a block beyond
`n_block`. -/

namespace Pthabt.Myfs

open Lib Run

variable {N : ℕ}

inductive BlockOp where
  | myfsOpen (filename : CString)
  | myfsGetLba (i offset : ℕ)
  | myfsUnlink (filename : CString)

def openStep (filename : CString) (s : Fs N) : Outcome (Fs N) :=
  match myfsOpen s filename with
  | some (s, _) => .ok s
  | none => .fault

def getLbaStep (i offset : ℕ) (s : Fs N) : Outcome (Fs N) :=
  match myfsGetLba s.sb i offset true with
  | some (sb, some _) => .ok { s with sb := sb }
  | some (sb, none) => .abort { s with sb := sb }
  | none => .fault

def BlockOp.step : BlockOp → Fs N → Outcome (Fs N)
  | .myfsOpen filename => openStep filename
  | .myfsGetLba i offset => getLbaStep i offset
  | .myfsUnlink filename => fun s => .ok (Myfs.myfsUnlink s filename)

/-- Allocations are at offsets of the table of an open file and never find the ring empty;
unlinks are of files without I/O in progress. -/
def BlockOp.Admissible : BlockOp → Fs N → Prop
  | .myfsOpen _, _ => True
  | .myfsGetLba i offset, s =>
    i < maxFiles ∧ (s.states i).flags.opened ∧ offset < maxBlocksPerFile * blockSize ∧
      ((s.sb.file i).block (offset / blockSize) = inactiveBlock → s.sb.free.rp ≠ s.sb.free.wp)
  | .myfsUnlink filename, s =>
    ∀ i < maxFiles, nameMatches s.sb filename i → (s.states i).refCount = 0

/-- An open stays in the directory; an unlink releases only files without holes. -/
def BlockOp.Intact : BlockOp → Fs N → Prop
  | .myfsOpen filename, s => CanOpen s.sb filename
  | .myfsGetLba _ _, _ => True
  | .myfsUnlink filename, s => ∀ i < maxFiles, Released s filename i → ¬ Holed (s.sb.file i)

/-! ### Single steps -/

theorem open_step {s : Fs N} {filename : CString} (h : CanOpen s.sb filename) :
    ∃ s' i, OpenResult s filename s' i ∧ openStep filename s = .ok s' := by
  obtain ⟨s', i, ho⟩ := myfsOpen_isSome.mpr h
  refine ⟨s', i, myfsOpen_eq_some.mp ho, ?_⟩
  rw [openStep, ho]

theorem open_step_fault {s : Fs N} {filename : CString} (h : ¬ CanOpen s.sb filename) :
    openStep filename s = .fault := by
  have hn : myfsOpen s filename = none := by
    cases ho : myfsOpen s filename with
    | none => rfl
    | some r => exact absurd (myfsOpen_isSome.mp ⟨r.1, r.2, ho⟩) h
  rw [openStep, hn]

/-- The result of an allocation step at an index of the table. -/
theorem getLba_step (s : Fs N) (i : ℕ) {offset b : ℕ} (hb : iBlock offset = b)
    (h : b < maxBlocksPerFile) :
    getLbaStep i offset s =
      if ((mapBlock s.sb i b).file i).block b = inactiveBlock
      then .abort { s with sb := mapBlock s.sb i b } else .ok { s with sb := mapBlock s.sb i b } := by
  subst hb
  rw [getLbaStep, myfsGetLba_write _ _ h]
  split_ifs <;> rfl

/-- In a conserved state the block taken from the ring is a block number. -/
theorem mapBlock_mapped {sb : Superblock N} (h : BlockInv sb) (hc : Conserved sb) {i b : ℕ}
    (hring : (sb.file i).block b = inactiveBlock → sb.free.rp ≠ sb.free.wp) :
    ((mapBlock sb i b).file i).block b ≠ inactiveBlock := by
  by_cases hm : (sb.file i).block b = inactiveBlock
  · rw [mapBlock_file hm, Function.update_self]
    simp only [mapFile, Function.update_self]
    intro he
    apply h.conserved_iff.mp hc
    rw [sb.free.entries_pop (hring hm), he]
    exact Multiset.mem_cons_self _ _
  · rwa [mapBlock_of_mapped hm]

theorem mapBlock_conserved {sb : Superblock N} (h : BlockInv sb) (hc : Conserved sb) {i b : ℕ}
    (hi : i < maxFiles) (hb : b < maxBlocksPerFile)
    (hring : (sb.file i).block b = inactiveBlock → sb.free.rp ≠ sb.free.wp) :
    BlockInv (mapBlock sb i b) ∧ Conserved (mapBlock sb i b) := by
  have hinv := h.mapBlock hi hb hring (mapBlock_mapped h hc hring)
  refine ⟨hinv, hinv.conserved_iff.mpr fun hmem => h.conserved_iff.mp hc ?_⟩
  by_cases hm : (sb.file i).block b = inactiveBlock
  · rw [mapBlock_free hm] at hmem
    rw [sb.free.entries_pop (hring hm)]
    exact Multiset.mem_cons_of_mem hmem
  · rwa [mapBlock_of_mapped hm] at hmem

theorem unlink_conserved_iff {s : Fs N} (h : BlockInv s.sb) (hc : Conserved s.sb)
    (filename : CString) :
    Conserved (myfsUnlink s filename).sb ↔
      ∀ i < maxFiles, Released s filename i → ¬ Holed (s.sb.file i) := by
  rw [(h.myfsUnlink filename).conserved_iff, myfsUnlink, unlinkScan_inactive h filename le_rfl]
  have := h.conserved_iff.mp hc
  simp only [this, false_or, not_exists, not_and]

/-- Invariant of intact runs. -/
def Sound (s : Fs N) : Prop := BlockInv s.sb ∧ Conserved s.sb

/-- One intact step keeps every block. -/
theorem sound_step (o : BlockOp) (s : Fs N) (h : Sound s) (hA : o.Admissible s)
    (hC : o.Intact s) : (o.step s).Safe Sound := by
  obtain ⟨hinv, hc⟩ := h
  cases o with
  | myfsOpen filename =>
    obtain ⟨s', i, ho, hs⟩ := open_step hC
    rw [BlockOp.step, hs, Outcome.safe_ok]
    have hinv' := hinv.openResult ho
    refine ⟨hinv', hinv'.conserved_iff.mpr ?_⟩
    rw [openResult_free ho]
    exact hinv.conserved_iff.mp hc
  | myfsGetLba i offset =>
    obtain ⟨hi, -, hoff, hring⟩ := hA
    obtain ⟨hb, hlt⟩ := iBlock_of_lt hoff
    rw [BlockOp.step, getLba_step s i hb (hb ▸ hlt), if_neg (mapBlock_mapped hinv hc hring),
      Outcome.safe_ok]
    exact mapBlock_conserved hinv hc hi (hb ▸ hlt) hring
  | myfsUnlink filename =>
    rw [BlockOp.step, Outcome.safe_ok]
    exact ⟨hinv.myfsUnlink filename, (unlink_conserved_iff hinv hc filename).mpr hC⟩

/-- A step that is not intact loses a block or leaves the superblock. -/
theorem broken_step (o : BlockOp) (s : Fs N) (h : Sound s) (_ : o.Admissible s)
    (hC : ¬ o.Intact s) : ¬ (o.step s).Safe (fun s => Conserved s.sb) := by
  obtain ⟨hinv, hc⟩ := h
  cases o with
  | myfsOpen filename =>
    rw [BlockOp.step, open_step_fault hC]
    exact Outcome.safe_fault _
  | myfsGetLba i offset => exact absurd trivial hC
  | myfsUnlink filename =>
    intro hs
    exact hC ((unlink_conserved_iff hinv hc filename).mp hs)

/-! ### Runs from a fresh superblock -/

/-- A superblock without files, all of whose blocks are in the ring. -/
theorem sound_of_unused {sb : Superblock N} (hfree : sb.free.entries = allBlocks N)
    (hfile : ∀ i < maxFiles, ∀ j < maxBlocksPerFile, (sb.file i).block j = inactiveBlock)
    (hn : ∀ i < maxFiles, (sb.file i).nBlock = 0) (states : ℕ → FileState) :
    Sound ⟨sb, states⟩ := by
  have hpos := sb.free.pos
  have hmapped : mappedBlocks sb = 0 := by
    unfold mappedBlocks tableSum
    refine Finset.sum_eq_zero fun i hi => ?_
    unfold fileBlocks tableSum
    refine Finset.sum_eq_zero fun j hj => ?_
    rw [hfile i (Finset.mem_range.mp hi) j (Finset.mem_range.mp hj), live_inactive]
  have hcounted : countedBlocks sb = 0 := by
    unfold countedBlocks tableSum
    exact Finset.sum_eq_zero fun i hi => hn i (Finset.mem_range.mp hi)
  have hlive : sb.free.entries.filter (· ≠ inactiveBlock) = sb.free.entries :=
    Multiset.filter_eq_self.mpr fun b hb he => by
      rw [hfree] at hb
      exact inactive_notMem_allBlocks (he ▸ hb)
  have hc : Conserved sb := by rw [Conserved, hfree, hmapped, add_zero]
  refine ⟨⟨?_, ?_, ?_⟩, hc⟩
  · rw [hlive]
    exact hc
  · rw [← Cyclic.card_entries, hfree, card_allBlocks, hcounted]
    omega
  · intro i hi
    dsimp only
    rw [hn i hi]
    exact Nat.zero_le _

section Init

variable (sb : Superblock N)

theorem init_size : (myfsSuperblockInit sb).free.size = N - 1 := by
  rw [Cyclic.size_eq]
  simp [myfsSuperblockInit]

theorem init_entries : (myfsSuperblockInit sb).free.entries = allBlocks N := by
  unfold Cyclic.entries allBlocks
  rw [init_size]
  refine Multiset.map_congr rfl fun k hk => ?_
  have hk := Multiset.mem_range.mp hk
  have hmod : (0 + k) % N = k := by
    rw [Nat.zero_add]
    exact Nat.mod_eq_of_lt (by omega)
  simp only [myfsSuperblockInit, hmod, hk, if_true]

theorem init_inactive {i j : ℕ} (hi : i < maxFiles) (hj : j < maxBlocksPerFile) :
    ((myfsSuperblockInit sb).file i).block j = inactiveBlock := by
  simp [myfsSuperblockInit, hi, hj]

theorem init_nBlock (i : ℕ) : ((myfsSuperblockInit sb).file i).nBlock = (sb.file i).nBlock := by
  simp only [myfsSuperblockInit]
  split_ifs <;> rfl

variable {sb}

theorem init_sound (hn : ∀ i < maxFiles, (sb.file i).nBlock = 0) (states : ℕ → FileState) :
    Sound ⟨myfsSuperblockInit sb, states⟩ :=
  sound_of_unused (init_entries sb) (fun _ hi _ hj => init_inactive sb hi hj)
    (fun i hi => (init_nBlock sb i).trans (hn i hi)) states

/-- Blocks are conserved along a run exactly when all its steps are intact. -/
theorem conserved_iff_intact (hn : ∀ i < maxFiles, (sb.file i).nBlock = 0)
    (states : ℕ → FileState) (ops : List BlockOp)
    (hA : Meets BlockOp.step BlockOp.Admissible ops ⟨myfsSuperblockInit sb, states⟩) :
    Always BlockOp.step (fun s : Fs N => Conserved s.sb) ops ⟨myfsSuperblockInit sb, states⟩ ↔
      Meets BlockOp.step BlockOp.Intact ops ⟨myfsSuperblockInit sb, states⟩ :=
  always_iff_meets (fun _ h => h.2) sound_step broken_step (init_sound hn states) hA

end Init

/-! ### One file -/

section OneFile

variable (N) (hN : 1 < N)

/-- A superblock file of zeros. -/
def zeroSuperblock : Superblock N where
  magic := 0
  free := ⟨fun _ => 0, 0, 0, by omega, by omega⟩
  file := fun _ => ⟨CString.empty, fun _ => 0, 0⟩

def nameA : CString := ⟨[97], by simp⟩

/-- The block table of a fresh slot. -/
def emptyTable (j : ℕ) : ℤ := if j < maxBlocksPerFile then inactiveBlock else 0

/-- The file system after the first mount of a file of zeros. -/
def freshFs : Fs N := ⟨myfsSuperblockInit (zeroSuperblock N hN), fun _ => ⟨⟨false, false⟩, 0⟩⟩

/-- A fresh file system with one open file. -/
def oneFile : Fs N := openNew (freshFs N hN) nameA 0

/-- The same after a first write to index `b` of the file. -/
def oneBlock (b : ℕ) : Fs N := { oneFile N hN with sb := mapBlock (oneFile N hN).sb 0 b }

theorem mount_zero : myfsMount (zeroSuperblock N hN) = freshFs N hN := by
  simp [myfsMount, freshFs, zeroSuperblock, myfsMagic]

theorem maxFiles_pos : 0 < maxFiles := by simp [maxFiles]

theorem fresh_file {i : ℕ} (hi : i < maxFiles) :
    (freshFs N hN).sb.file i = ⟨CString.empty, emptyTable, 0⟩ := by
  simp only [freshFs, myfsSuperblockInit, hi, if_true]
  rfl

theorem fresh_sound : Sound (freshFs N hN) := init_sound (fun _ _ => rfl) _

theorem nameA_short : nameA.strlen < maxNamelen := by simp [nameA, CString.strlen, maxNamelen]

theorem fresh_openResult : OpenResult (freshFs N hN) nameA (oneFile N hN) 0 :=
  myfsOpen_eq_some.mp (myfsOpen_first (fun i hi => by rw [fresh_file N hN hi]) (by decide)
    nameA_short)

theorem fresh_open : BlockOp.step (.myfsOpen nameA) (freshFs N hN) = .ok (oneFile N hN) := by
  rw [BlockOp.step, openStep, myfsOpen_eq_some.mpr (fresh_openResult N hN)]

theorem fresh_canOpen : CanOpen (freshFs N hN).sb nameA :=
  Or.inr ⟨⟨0, maxFiles_pos, by rw [fresh_file N hN maxFiles_pos], by simp⟩, nameA_short⟩

theorem oneFile_sound : Sound (oneFile N hN) := by
  have := sound_step (.myfsOpen nameA) (freshFs N hN) (fresh_sound N hN) trivial
    (fresh_canOpen N hN)
  rwa [fresh_open, Outcome.safe_ok] at this

theorem oneFile_file : (oneFile N hN).sb.file 0 = ⟨nameA, emptyTable, 0⟩ := by
  simp [oneFile, openNew, fresh_file N hN maxFiles_pos]

theorem oneFile_refCount (i : ℕ) : ((oneFile N hN).states i).refCount = 0 := by
  rw [oneFile, openNew]
  by_cases hi : i = 0
  · subst hi; rw [Fs.setState_self]; rfl
  · rw [Fs.setState_of_ne _ _ hi]; rfl

theorem oneFile_positions : (oneFile N hN).sb.free.rp = 0 ∧ (oneFile N hN).sb.free.wp = N - 1 :=
  ⟨rfl, rfl⟩

theorem oneFile_admissible {b : ℕ} (hb : b < maxBlocksPerFile) :
    (BlockOp.myfsGetLba 0 (b * blockSize)).Admissible (oneFile N hN) := by
  have hbs : 0 < blockSize := by simp [blockSize]
  refine ⟨maxFiles_pos, by simp [oneFile, openNew, fileOpened],
    Nat.mul_lt_mul_of_pos_right hb hbs, fun _ => ?_⟩
  rw [(oneFile_positions N hN).1, (oneFile_positions N hN).2]
  omega

theorem oneBlock_write {b : ℕ} (hb : b < maxBlocksPerFile) :
    BlockOp.step (.myfsGetLba 0 (b * blockSize)) (oneFile N hN) = .ok (oneBlock N hN b) := by
  have hbs : 0 < blockSize := by simp [blockSize]
  obtain ⟨hi, -, hoff, hring⟩ := oneFile_admissible N hN hb
  have hidx : iBlock (b * blockSize) = b := by
    rw [(iBlock_of_lt hoff).1, Nat.mul_div_cancel _ hbs]
  rw [Nat.mul_div_cancel _ hbs] at hring
  have hok := mapBlock_mapped (oneFile_sound N hN).1 (oneFile_sound N hN).2 hring
  rw [BlockOp.step, getLba_step _ 0 hidx hb, if_neg hok]
  rfl

theorem oneBlock_sound {b : ℕ} (hb : b < maxBlocksPerFile) : Sound (oneBlock N hN b) := by
  have := sound_step _ _ (oneFile_sound N hN) (oneFile_admissible N hN hb) trivial
  rwa [oneBlock_write N hN hb, Outcome.safe_ok] at this

theorem oneBlock_file {b : ℕ} (hb : b < maxBlocksPerFile) :
    (oneBlock N hN b).sb.file 0 = ⟨nameA, Function.update emptyTable b 0, 1⟩ := by
  have hun : ((oneFile N hN).sb.file 0).block b = inactiveBlock := by
    rw [oneFile_file]
    simp [emptyTable, hb]
  have hcell : (oneFile N hN).sb.free.cell (oneFile N hN).sb.free.rp = 0 := by
    change (if 0 < N - 1 then ((0 : ℕ) : ℤ) else 0) = 0
    simp
  rw [oneBlock, mapBlock_file hun, Function.update_self, mapFile, hcell, oneFile_file]

theorem oneBlock_free {b : ℕ} (hb : b < maxBlocksPerFile) :
    (oneBlock N hN b).sb.free = (oneFile N hN).sb.free.pop := by
  refine mapBlock_free ?_
  rw [oneFile_file]
  simp [emptyTable, hb]

theorem oneBlock_released (b : ℕ) (hb : b < maxBlocksPerFile) :
    Released (oneBlock N hN b) nameA 0 := by
  refine ⟨?_, oneFile_refCount N hN 0⟩
  rw [nameMatches_iff, oneBlock_file N hN hb]
  exact CString.isPrefix_refl _

end OneFile

/-- Open a new file, write its second block, unlink it. -/
def holeRun : List BlockOp := [.myfsOpen nameA, .myfsGetLba 0 (1 * blockSize), .myfsUnlink nameA]

theorem one_lt_numBlocks : 1 < numBlocks := by simp [numBlocks]

/-- The unlink of `holeRun` stores `inactiveBlock` in the ring and forgets block 0. -/
theorem hole_not_conserved :
    Meets BlockOp.step BlockOp.Admissible holeRun
        (myfsMount (zeroSuperblock numBlocks one_lt_numBlocks)) ∧
      ¬ Always BlockOp.step (fun s => Conserved s.sb) holeRun
        (myfsMount (zeroSuperblock numBlocks one_lt_numBlocks)) := by
  have htab : 1 < maxBlocksPerFile := by simp [maxBlocksPerFile]
  have hopen := fresh_open numBlocks one_lt_numBlocks
  have hwrite := oneBlock_write numBlocks one_lt_numBlocks htab
  have hfile := oneBlock_file numBlocks one_lt_numBlocks htab
  have hrel := oneBlock_released numBlocks one_lt_numBlocks 1 htab
  have hholed : Holed ((oneBlock numBlocks one_lt_numBlocks 1).sb.file 0) := by
    rw [hfile]
    exact ⟨0, Nat.zero_lt_one, by simp [Function.update, emptyTable, Nat.zero_lt_of_lt htab]⟩
  rw [mount_zero]
  constructor
  · refine ⟨trivial, ?_⟩
    rw [hopen, Outcome.after_ok]
    refine ⟨oneFile_admissible _ _ htab, ?_⟩
    rw [hwrite, Outcome.after_ok]
    exact ⟨fun i _ _ => oneFile_refCount _ _ i, trivial⟩
  · rintro ⟨-, h⟩
    rw [hopen, Outcome.safe_ok] at h
    obtain ⟨-, h⟩ := h
    rw [hwrite, Outcome.safe_ok] at h
    obtain ⟨-, h⟩ := h
    obtain ⟨hinv, hc⟩ := oneBlock_sound numBlocks one_lt_numBlocks htab
    exact (unlink_conserved_iff hinv hc nameA).mp h 0 maxFiles_pos hrel hholed

/-- The theorem at a run without holes: open a file, write its first block, unlink it. -/
theorem conserved_without_hole :
    Always BlockOp.step (fun s => Conserved s.sb)
      [.myfsOpen nameA, .myfsGetLba 0 (0 * blockSize), .myfsUnlink nameA]
      (freshFs numBlocks one_lt_numBlocks) := by
  have htab : 0 < maxBlocksPerFile := by simp [maxBlocksPerFile]
  have hopen := fresh_open numBlocks one_lt_numBlocks
  have hwrite := oneBlock_write numBlocks one_lt_numBlocks htab
  refine (conserved_iff_intact (fun _ _ => rfl) _ _ ?_).mpr ?_
  · refine ⟨trivial, ?_⟩
    change (BlockOp.step _ (freshFs numBlocks one_lt_numBlocks)).After _
    rw [hopen, Outcome.after_ok]
    refine ⟨oneFile_admissible _ _ htab, ?_⟩
    rw [hwrite, Outcome.after_ok]
    exact ⟨fun i _ _ => oneFile_refCount _ _ i, trivial⟩
  · refine ⟨fresh_canOpen _ _, ?_⟩
    change (BlockOp.step _ (freshFs numBlocks one_lt_numBlocks)).After _
    rw [hopen, Outcome.after_ok]
    refine ⟨trivial, ?_⟩
    rw [hwrite, Outcome.after_ok]
    refine ⟨fun i hi hr => ?_, trivial⟩
    rintro ⟨j, hj, hjm⟩
    by_cases h0 : i = 0
    · subst h0
      rw [oneBlock_file _ _ htab] at hj hjm
      obtain rfl : j = 0 := by simpa using hj
      simp [inactiveBlock] at hjm
    · have hn : ((oneBlock numBlocks one_lt_numBlocks 0).sb.file i).nBlock = 0 := by
        have hun : ((oneFile numBlocks one_lt_numBlocks).sb.file 0).block 0 = inactiveBlock := by
          rw [oneFile_file]
          simp [emptyTable, htab]
        rw [oneBlock, mapBlock_file hun, Function.update_of_ne h0, oneFile, openNew]
        simp only [Fs.setState_sb, Superblock.setFile_of_ne _ _ h0]
        rw [fresh_file _ _ hi]
      omega

end Pthabt.Myfs
