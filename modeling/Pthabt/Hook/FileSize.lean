import Pthabt.Hook.Transfer
import Pthabt.Myfs.Conservation

/-! The size of a file over runs of `myfs_open` of new files and writes at any offsets.
`n_block` counts the blocks that were touched, and `myfs_get_size`, `read_impl` and `fstat`
use it as a length. The two agree along a run exactly when no write skips a block:
each goes to a block of the file or to the one after its last. -/

namespace Pthabt.Hook

open Lib Run Myfs

variable {N : ℕ}

/-- The bytes that one request of `write_impl` writes, at the address of its first. -/
structure Extent where
  file : ℕ
  offset : ℕ
  length : ℕ

def Extent.Covers (e : Extent) (i k : ℕ) : Prop :=
  e.file = i ∧ e.offset ≤ k ∧ k < e.offset + e.length

/-- The file system and what was written so far. -/
structure Sized (N : ℕ) where
  fs : Fs N
  written : List Extent

inductive SizeOp where
  | myfsOpen (filename : CString)
  | write (e : Extent)

/-- A write calls `myfs_get_lba(i, off, 1)`. -/
def SizeOp.step : SizeOp → Sized N → Outcome (Sized N)
  | .myfsOpen filename, s => (openStep filename s.fs).map fun fs => { s with fs := fs }
  | .write e, s => (getLbaStep e.file e.offset s.fs).map fun fs => ⟨fs, e :: s.written⟩

/-- Opens are of new files. Writes are of bytes of one block, at offsets of the table of an open
file, and never find the ring empty. -/
def SizeOp.Admissible : SizeOp → Sized N → Prop
  | .myfsOpen filename, s => NoMatch s.fs.sb filename
  | .write e, s =>
    (BlockOp.myfsGetLba e.file e.offset).Admissible s.fs ∧ e.offset % blockSize + e.length ≤ blockSize

/-- An open finds room in the directory, a write skips no block. -/
def SizeOp.Appends : SizeOp → Sized N → Prop
  | .myfsOpen filename, s => CanOpen s.fs.sb filename
  | .write e, s => e.offset / blockSize ≤ (s.fs.sb.file e.file).nBlock

/-- The size of a file covers what was written. -/
structure SizeCovers (s : Sized N) : Prop where
  dense : Dense s.fs.sb
  below : ∀ e ∈ s.written, ∀ i k, e.Covers i k → k < myfsGetSize s.fs.sb i
  /-- A read of a written byte reaches it after `read_impl` clipped the length. -/
  unclipped : ∀ e ∈ s.written, ∀ i k pos len, e.Covers i k → pos ≤ k → k < pos + len →
    k < pos + readLen (myfsGetSize s.fs.sb i) pos len
  /-- A read below the size passes the assertion of `myfs_get_lba`. -/
  readable : ∀ i < maxFiles, ∀ offset < myfsGetSize s.fs.sb i,
    ∃ lba, myfsGetLba s.fs.sb i offset false = some (s.fs.sb, some lba)

/-- Invariant of the runs that skip no block. -/
structure SizeInv (s : Sized N) : Prop where
  sound : Sound s.fs
  dense : Dense s.fs.sb
  counted : ∀ e ∈ s.written, e.file < maxFiles ∧
    e.offset / blockSize < (s.fs.sb.file e.file).nBlock ∧ e.offset % blockSize + e.length ≤ blockSize
  /-- A slot without a name holds no file. -/
  unused : ∀ i < maxFiles, (s.fs.sb.file i).name = CString.empty →
    (s.fs.sb.file i).nBlock = 0 ∧ (s.fs.states i).flags.opened = false

theorem blockSize_pos : 0 < blockSize := by simp [blockSize]

/-! ### What a dense table says of the size -/

/-- The sizes of a sound file system are not reduced modulo `2 ^ 64`. -/
theorem getSize_eq {s : Fs N} (h : Sound s) {i : ℕ} (hi : i < maxFiles) :
    myfsGetSize s.sb i = (s.sb.file i).nBlock * blockSize :=
  getSize_of_le (h.1.nBlock_le_max hi)

theorem SizeInv.below {s : Sized N} (h : SizeInv s) {e : Extent} (he : e ∈ s.written) {i k : ℕ}
    (hk : e.Covers i k) : k < myfsGetSize s.fs.sb i := by
  obtain ⟨rfl, -, hlt⟩ := hk
  obtain ⟨hi, hblock, hfit⟩ := h.counted e he
  have hdiv : e.offset / blockSize * blockSize + e.offset % blockSize = e.offset :=
    Nat.div_add_mod' e.offset blockSize
  have hnext : (e.offset / blockSize + 1) * blockSize ≤
      (s.fs.sb.file e.file).nBlock * blockSize := Nat.mul_le_mul_right _ hblock
  rw [getSize_eq h.sound hi]
  rw [Nat.succ_mul] at hnext
  omega

/-- An offset below the size lies in a mapped block. -/
theorem SizeInv.mapped {s : Sized N} (h : SizeInv s) {i offset : ℕ} (hi : i < maxFiles)
    (hoff : offset < myfsGetSize s.fs.sb i) : Mapped s.fs.sb i offset := by
  rw [getSize_eq h.sound hi] at hoff
  have hle := h.sound.1.nBlock_le_max hi
  have hblock : offset / blockSize < (s.fs.sb.file i).nBlock :=
    (Nat.div_lt_iff_lt_mul blockSize_pos).mpr hoff
  refine ⟨hi, lt_of_lt_of_le hoff (Nat.mul_le_mul_right _ hle), ?_⟩
  exact (h.dense i hi _ (lt_of_lt_of_le hblock hle)).mpr hblock

theorem SizeInv.covers {s : Sized N} (h : SizeInv s) : SizeCovers s where
  dense := h.dense
  below := fun _ he _ _ hk => h.below he hk
  unclipped := by
    intro e he i k pos len hk hpos hlen
    have hlt := h.below he hk
    obtain ⟨d, rfl⟩ := Nat.exists_eq_add_of_le hpos
    exact Nat.add_lt_add_left (lt_readLen (by omega) hlt) pos
  readable := fun _ hi _ hoff => ⟨_, getLba_of_mapped (h.mapped hi hoff) false⟩

/-! ### Single steps -/

theorem NoMatch.openResult {s s' : Fs N} {filename : CString} {i : ℕ} (h : NoMatch s.sb filename)
    (ho : OpenResult s filename s' i) : FirstEmpty s.sb i ∧ s' = openNew s filename i := by
  rcases ho with ⟨hm, -⟩ | ⟨-, he, -, rfl⟩
  · exact absurd h hm.not_noMatch
  · exact ⟨he, rfl⟩

/-- A name that matches no empty slot is not empty. -/
theorem NoMatch.ne_empty {sb : Superblock N} {filename : CString} (h : NoMatch sb filename) :
    filename ≠ CString.empty := by
  rintro rfl
  apply h 0 maxFiles_pos
  rw [nameMatches_iff]
  exact CString.empty_isPrefix _

theorem sizeInv_openNew {s : Sized N} (h : SizeInv s) {filename : CString} {i : ℕ}
    (hs : Sound (openNew s.fs filename i)) (hi : FirstEmpty s.fs.sb i)
    (hne : filename ≠ CString.empty) : SizeInv { s with fs := openNew s.fs filename i } := by
  have h0 := (h.unused i hi.1 hi.2.1).1
  refine ⟨hs, ?_, ?_, ?_⟩
  · intro k hk j hj
    have hd := h.dense k hk j hj
    rw [openNew_file]
    by_cases hki : k = i
    · subst hki
      rw [Function.update_self]
      rwa [h0] at hd
    · rw [Function.update_of_ne hki]
      exact hd
  · intro e he
    obtain ⟨hf, hblock, hfit⟩ := h.counted e he
    refine ⟨hf, ?_, hfit⟩
    have hei : e.file ≠ i := by
      intro hei
      rw [hei, h0] at hblock
      exact absurd hblock (Nat.not_lt_zero _)
    dsimp only
    rwa [openNew_file, Function.update_of_ne hei]
  · intro k hk hname
    dsimp only at hname ⊢
    rw [openNew_file] at hname ⊢
    by_cases hki : k = i
    · subst hki
      rw [Function.update_self] at hname
      exact absurd hname hne
    · rw [Function.update_of_ne hki] at hname ⊢
      rw [openNew, Fs.setState_of_ne _ _ hki]
      exact h.unused k hk hname

/-- The write of a sound file system takes a block, so the process goes on. -/
theorem write_step {s : Sized N} (h : Sound s.fs) {e : Extent}
    (hA : (SizeOp.write e).Admissible s) :
    e.offset / blockSize < maxBlocksPerFile ∧
    ((mapBlock s.fs.sb e.file (e.offset / blockSize)).file e.file).block (e.offset / blockSize) ≠
      inactiveBlock ∧
    (SizeOp.write e).step s =
      .ok ⟨{ s.fs with sb := mapBlock s.fs.sb e.file (e.offset / blockSize) }, e :: s.written⟩ := by
  obtain ⟨⟨-, -, hoff, hring⟩, -⟩ := hA
  obtain ⟨hb, hlt⟩ := iBlock_of_lt hoff
  have hok := mapBlock_mapped h.1 h.2 hring
  refine ⟨hb ▸ hlt, hok, ?_⟩
  rw [SizeOp.step, getLba_step s.fs e.file hb (hb ▸ hlt), if_neg hok, Outcome.map_ok]

theorem sizeInv_write {s : Sized N} (h : SizeInv s) {e : Extent}
    (hA : (SizeOp.write e).Admissible s) (hC : (SizeOp.write e).Appends s) :
    ((SizeOp.write e).step s).Safe SizeInv := by
  obtain ⟨hlt, hok, hstep⟩ := write_step h.sound hA
  obtain ⟨⟨hi, hopen, -, hring⟩, hfit⟩ := hA
  obtain ⟨hdense, hblock⟩ := mapBlock_dense h.dense hi hlt hC hok
  rw [hstep, Outcome.safe_ok]
  refine ⟨mapBlock_conserved h.sound.1 h.sound.2 hi hlt hring, hdense, ?_, ?_⟩
  · intro e' he'
    rcases List.mem_cons.mp he' with rfl | he'
    · exact ⟨hi, hblock, hfit⟩
    · obtain ⟨hf, hold, hfit'⟩ := h.counted e' he'
      exact ⟨hf, lt_of_lt_of_le hold (mapBlock_nBlock_le _ _ _ _), hfit'⟩
  · intro k hk hname
    dsimp only at hname ⊢
    rw [mapBlock_name] at hname
    obtain ⟨h0, hclosed⟩ := h.unused k hk hname
    -- the written file is open, so it is not an unused slot
    have hki : k ≠ e.file := by
      rintro rfl
      rw [hclosed] at hopen
      cases hopen
    rw [mapBlock_file_of_ne _ hki]
    exact ⟨h0, hclosed⟩

/-- One step that skips no block keeps the invariant. -/
theorem sizeInv_step (o : SizeOp) (s : Sized N) (h : SizeInv s) (hA : o.Admissible s)
    (hC : o.Appends s) : (o.step s).Safe SizeInv := by
  cases o with
  | myfsOpen filename =>
    have hs := sound_step (.myfsOpen filename) s.fs h.sound trivial hC
    obtain ⟨s', i, ho, hstep⟩ := open_step hC
    obtain ⟨hi, rfl⟩ := NoMatch.openResult hA ho
    rw [BlockOp.step, hstep, Outcome.safe_ok] at hs
    rw [SizeOp.step, hstep, Outcome.map_ok, Outcome.safe_ok]
    exact sizeInv_openNew h hs hi (NoMatch.ne_empty hA)
  | write e => exact sizeInv_write h hA hC

/-- A step that skips a block is undefined or leaves a size that does not cover it. -/
theorem uncovered_step (o : SizeOp) (s : Sized N) (h : SizeInv s) (hA : o.Admissible s)
    (hC : ¬ o.Appends s) : ¬ (o.step s).Safe SizeCovers := by
  cases o with
  | myfsOpen filename =>
    rw [SizeOp.step, open_step_fault hC]
    exact Outcome.safe_fault _
  | write e =>
    obtain ⟨hlt, hok, hstep⟩ := write_step h.sound hA
    obtain ⟨⟨hi, -, -, -⟩, -⟩ := hA
    rw [hstep, Outcome.safe_ok]
    intro hcov
    exact mapBlock_not_dense h.dense hi hlt (Nat.lt_of_not_le hC) hok hcov.dense

/-! ### Runs from the first mount -/

section Mount

variable {sb : Superblock N}

theorem mount_sizeInv (hmagic : sb.magic ≠ myfsMagic) (hn : ∀ i < maxFiles, (sb.file i).nBlock = 0) :
    SizeInv ⟨myfsMount sb, []⟩ := by
  have hmount : myfsMount sb = ⟨myfsSuperblockInit sb, fun _ => ⟨⟨false, false⟩, 0⟩⟩ := by
    rw [myfsMount, if_pos hmagic]
  have hn' : ∀ i < maxFiles, ((myfsSuperblockInit sb).file i).nBlock = 0 :=
    fun i hi => (init_nBlock sb i).trans (hn i hi)
  rw [hmount]
  refine ⟨init_sound hn _, ?_, by simp, fun i hi _ => ⟨hn' i hi, rfl⟩⟩
  intro i hi j hj
  dsimp only
  rw [init_inactive sb hi hj, hn' i hi]
  simp

/-- Sizes cover what was written along a run exactly when none of its writes skips a block. -/
theorem size_covers_iff (hmagic : sb.magic ≠ myfsMagic)
    (hn : ∀ i < maxFiles, (sb.file i).nBlock = 0) (ops : List SizeOp)
    (hA : Meets SizeOp.step SizeOp.Admissible ops ⟨myfsMount sb, []⟩) :
    Always SizeOp.step SizeCovers ops ⟨myfsMount sb, []⟩ ↔
      Meets SizeOp.step SizeOp.Appends ops ⟨myfsMount sb, []⟩ :=
  always_iff_meets (fun _ h => h.covers) sizeInv_step uncovered_step (mount_sizeInv hmagic hn) hA

end Mount

/-! ### One write to a new file -/

section Examples

variable (N) (hN : 1 < N)

/-- Open a new file and write 512 bytes at the start of block `b`. -/
def firstWrite (b : ℕ) : List SizeOp := [.myfsOpen nameA, .write ⟨0, b * blockSize, 512⟩]

theorem zero_magic : (zeroSuperblock N hN).magic ≠ myfsMagic := by simp [zeroSuperblock, myfsMagic]

theorem first_open : (SizeOp.myfsOpen nameA).step ⟨freshFs N hN, []⟩ = .ok ⟨oneFile N hN, []⟩ := by
  have hopen : openStep nameA (freshFs N hN) = .ok (oneFile N hN) := fresh_open N hN
  rw [SizeOp.step, hopen, Outcome.map_ok]

theorem first_admissible {b : ℕ} (hb : b < maxBlocksPerFile) :
    Meets SizeOp.step SizeOp.Admissible (firstWrite b) ⟨freshFs N hN, []⟩ := by
  have hnew : NoMatch (freshFs N hN).sb nameA := by
    intro k hk hm
    rw [nameMatches_iff, fresh_file N hN hk] at hm
    exact CString.not_isPrefix_empty (by decide) hm
  have hfit : b * blockSize % blockSize + 512 ≤ blockSize := by
    rw [Nat.mul_mod_left]
    simp [blockSize]
  refine ⟨hnew, ?_⟩
  rw [first_open, Outcome.after_ok]
  exact ⟨⟨oneFile_admissible N hN hb, hfit⟩, Outcome.After.of_forall (fun _ => trivial) _⟩

theorem first_write {b : ℕ} (hb : b < maxBlocksPerFile) :
    run SizeOp.step (firstWrite b) ⟨freshFs N hN, []⟩ =
      .ok ⟨oneBlock N hN b, [⟨0, b * blockSize, 512⟩]⟩ := by
  have hwrite : getLbaStep 0 (b * blockSize) (oneFile N hN) = .ok (oneBlock N hN b) :=
    oneBlock_write N hN hb
  rw [firstWrite, run_cons, first_open, Outcome.bind_ok, run_cons, SizeOp.step, hwrite,
    Outcome.map_ok, Outcome.bind_ok, run_nil]

end Examples

/-- The theorem at a write to the first block of a new file. -/
theorem size_covers_first :
    Always SizeOp.step SizeCovers (firstWrite 0)
      ⟨myfsMount (zeroSuperblock numBlocks one_lt_numBlocks), []⟩ := by
  have htab : 0 < maxBlocksPerFile := by simp [maxBlocksPerFile]
  have hA := first_admissible numBlocks one_lt_numBlocks htab
  rw [← mount_zero] at hA
  refine (size_covers_iff (zero_magic _ _) (fun _ _ => rfl) _ hA).mpr ?_
  rw [mount_zero]
  refine ⟨fresh_canOpen _ _, ?_⟩
  rw [first_open, Outcome.after_ok]
  refine ⟨?_, Outcome.After.of_forall (fun _ => trivial) _⟩
  rw [SizeOp.Appends, Nat.zero_mul, Nat.zero_div]
  exact Nat.zero_le _

/-- A new file whose second block is written first: the byte written lies at its size, a read of it
is cut to nothing, and a read of its first block fails the assertion of `myfs_get_lba`. -/
theorem skipped_block_not_covered :
    Meets SizeOp.step SizeOp.Admissible (firstWrite 1)
        ⟨myfsMount (zeroSuperblock numBlocks one_lt_numBlocks), []⟩ ∧
      ¬ Always SizeOp.step SizeCovers (firstWrite 1)
        ⟨myfsMount (zeroSuperblock numBlocks one_lt_numBlocks), []⟩ ∧
      ∃ s, run SizeOp.step (firstWrite 1)
          ⟨myfsMount (zeroSuperblock numBlocks one_lt_numBlocks), []⟩ = .ok s ∧
        (s.fs.sb.file 0).nBlock = 1 ∧ (s.fs.sb.file 0).block 0 = inactiveBlock ∧
        (s.fs.sb.file 0).block 1 = 0 ∧ s.written = [⟨0, myfsGetSize s.fs.sb 0, 512⟩] ∧
        readLen (myfsGetSize s.fs.sb 0) (1 * blockSize) 512 = 0 ∧
        myfsGetLba s.fs.sb 0 0 false = some (s.fs.sb, none) := by
  have htab : 1 < maxBlocksPerFile := by simp [maxBlocksPerFile]
  have hbs : blockSize = 2097152 := by simp [blockSize]
  have hrun := first_write numBlocks one_lt_numBlocks htab
  have hfile := oneBlock_file numBlocks one_lt_numBlocks htab
  have hsize := getSize_eq (oneBlock_sound numBlocks one_lt_numBlocks htab) maxFiles_pos
  have hhole : Function.update emptyTable 1 0 0 = inactiveBlock := by
    simp [Function.update, emptyTable, Nat.zero_lt_of_lt htab]
  rw [hfile, Nat.one_mul] at hsize
  rw [mount_zero]
  refine ⟨first_admissible _ _ htab, fun h => ?_, _, hrun, ?_⟩
  · have hcov := h.at_end hrun
    have hlt := hcov.below _ (List.mem_singleton_self _) 0 (1 * blockSize)
      ⟨rfl, Nat.le_refl _, by simp⟩
    rw [hsize, Nat.one_mul] at hlt
    exact lt_irrefl _ hlt
  · dsimp only
    rw [hsize, hfile, hbs]
    refine ⟨rfl, hhole, by simp, rfl, by decide, ?_⟩
    have hidx : iBlock 0 = 0 := by simp [iBlock]
    rw [myfsGetLba, hidx, if_pos (Nat.zero_lt_of_lt htab)]
    simp only [Bool.false_eq_true, if_false, hfile, hhole, if_true]

end Pthabt.Hook
