import Pthabt.Myfs.Conservation

/-! Allocation from an empty ring. `myfs_get_lba` does not compare the two positions of
the ring, so a call on an unmapped index moves the read position past the write
position, after which the ring looks full. While earlier allocations always found a
block, an empty ring means that the block tables hold every block, so the number
taken is mapped already, unless it is no block at all. -/

namespace Pthabt.Myfs

open Lib Run

variable {N : ℕ}

/-- Some run from a fresh superblock ends in `s` with an empty ring. -/
def Exhausted (s : Fs N) : Prop :=
  s.sb.free.rp = s.sb.free.wp ∧
    ∃ (sb : Superblock N) (states : ℕ → FileState) (ops : List BlockOp),
      (∀ i < maxFiles, (sb.file i).nBlock = 0) ∧
        run BlockOp.step ops ⟨myfsSuperblockInit sb, states⟩ = .ok s

/-- What a failed allocation for index `b` of slot `i` should leave: the ring, the tables, and no
new entry that is mapped elsewhere or is no block number. -/
structure ExhaustionSafe (sb sb' : Superblock N) (i b : ℕ) : Prop where
  ring : sb'.free = sb.free
  tables : ∀ k < maxFiles, (sb'.file k).block = (sb.file k).block
  entry : (sb'.file i).block b = inactiveBlock ∨
    (sb'.file i).block b ∉ mappedBlocks sb ∧ (sb'.file i).block b ∈ allBlocks N

theorem succ_mod_ne {r : ℕ} (hN : 2 ≤ N) (hr : r < N) : (r + 1) % N ≠ r := by
  rw [Cyclic.succ_mod r hr]
  split_ifs <;> omega

/-- A call for an unmapped index takes the cell at the read position, whatever it holds. -/
theorem mapBlock_taken {sb : Superblock N} {i b : ℕ} (hun : (sb.file i).block b = inactiveBlock) :
    (mapBlock sb i b).free.rp = (sb.free.rp + 1) % N ∧
      ((mapBlock sb i b).file i).block b = sb.free.cell sb.free.rp := by
  rw [mapBlock_free hun, mapBlock_file hun, Function.update_self]
  simp [mapFile]

theorem mapBlock_exhausted {sb : Superblock N} (hN : 2 ≤ N) {i b : ℕ}
    (hun : (sb.file i).block b = inactiveBlock) : ¬ ExhaustionSafe sb (mapBlock sb i b) i b := by
  intro h
  have hrp := (mapBlock_taken hun).1
  rw [h.ring] at hrp
  exact succ_mod_ne hN sb.free.rp_lt hrp.symm

/-- No allocation from an empty ring is safe. -/
theorem exhaustion_unsafe (hN : 2 ≤ N) {s : Fs N} (hs : Exhausted s) {i offset : ℕ}
    (hoff : iBlock offset < maxBlocksPerFile)
    (hun : (s.sb.file i).block (iBlock offset) = inactiveBlock) :
    ∃ sb' lba, myfsGetLba s.sb i offset true = some (sb', lba) ∧
      sb'.free.rp ≠ s.sb.free.wp ∧ ¬ ExhaustionSafe s.sb sb' i (iBlock offset) := by
  refine ⟨_, _, myfsGetLba_write s.sb i hoff, ?_, mapBlock_exhausted hN hun⟩
  rw [(mapBlock_taken hun).1, ← hs.1]
  exact succ_mod_ne hN s.sb.free.rp_lt

/-! ### What the first such call takes -/

theorem blockInv_step (o : BlockOp) (s s' : Fs N) (h : BlockInv s.sb) (hA : o.Admissible s)
    (hs : o.step s = .ok s') : BlockInv s'.sb := by
  cases o with
  | myfsOpen filename =>
    rw [BlockOp.step, openStep] at hs
    cases ho : myfsOpen s filename with
    | none => simp [ho] at hs
    | some r =>
      obtain ⟨t, k⟩ := r
      simp only [ho, Outcome.ok.injEq] at hs
      exact hs ▸ h.openResult (myfsOpen_eq_some.mp ho)
  | myfsGetLba i offset =>
    obtain ⟨hi, -, hoff, hring⟩ := hA
    obtain ⟨hb, hlt⟩ := iBlock_of_lt hoff
    rw [BlockOp.step, getLba_step s i hb (hb ▸ hlt)] at hs
    split_ifs at hs with hm
    simp only [Outcome.ok.injEq] at hs
    exact hs ▸ h.mapBlock hi (hb ▸ hlt) hring hm
  | myfsUnlink filename =>
    simp only [BlockOp.step, Outcome.ok.injEq] at hs
    exact hs ▸ h.myfsUnlink filename

/-- With an empty ring, the block tables hold every block. -/
theorem BlockInv.mapped_all {sb : Superblock N} (h : BlockInv sb) (he : sb.free.rp = sb.free.wp) :
    mappedBlocks sb = allBlocks N := by
  have h0 : sb.free.entries = 0 := by
    rw [← Multiset.card_eq_zero, Cyclic.card_entries]
    exact sb.free.size_eq_zero.mpr he
  have hl := h.live
  rwa [h0, Multiset.filter_zero, zero_add] at hl

/-- A run that empties the ring has mapped every block, so that the number the next allocation
takes from a stale cell, if it is a block at all, is mapped twice. -/
theorem exhausted_taken {sb : Superblock N} (hn : ∀ i < maxFiles, (sb.file i).nBlock = 0)
    (states : ℕ → FileState) {ops : List BlockOp} {s : Fs N}
    (hA : Meets BlockOp.step BlockOp.Admissible ops ⟨myfsSuperblockInit sb, states⟩)
    (hrun : run BlockOp.step ops ⟨myfsSuperblockInit sb, states⟩ = .ok s)
    (he : s.sb.free.rp = s.sb.free.wp) {i b : ℕ} (hun : (s.sb.file i).block b = inactiveBlock)
    (hblock : s.sb.free.cell s.sb.free.rp ∈ allBlocks N) :
    ((mapBlock s.sb i b).file i).block b ∈ mappedBlocks s.sb := by
  have hinv : BlockInv s.sb := run_inv_of_meets (I := fun s : Fs N => BlockInv s.sb)
    (fun o t t' => blockInv_step o t t') (init_sound hn states).1 hA hrun
  rw [(mapBlock_taken hun).2, hinv.mapped_all he]
  exact hblock

/-! ### A ring of two cells -/

/-- The file system with its only block mapped. -/
def fullFs : Fs 2 := oneBlock 2 (by omega) 0

/-- Open a new file and write its first block. -/
def fillRun : List BlockOp := [.myfsOpen nameA, .myfsGetLba 0 (0 * blockSize)]

theorem tab_one : 1 < maxBlocksPerFile := by simp [maxBlocksPerFile]

theorem fill_run : run BlockOp.step fillRun (freshFs 2 (by omega)) = .ok fullFs := by
  have htab : 0 < maxBlocksPerFile := Nat.zero_lt_of_lt tab_one
  rw [fillRun, run_cons, fresh_open, Outcome.bind_ok, run_cons, oneBlock_write 2 _ htab]
  rfl

theorem full_positions : fullFs.sb.free.rp = 1 ∧ fullFs.sb.free.wp = 1 := by
  rw [fullFs, oneBlock_free 2 _ (Nat.zero_lt_of_lt tab_one)]
  obtain ⟨hr, hw⟩ := oneFile_positions 2 (by omega)
  rw [Cyclic.pop_rp, Cyclic.pop_wp, hr, hw]
  exact ⟨rfl, rfl⟩

theorem full_exhausted : Exhausted fullFs := by
  obtain ⟨hr, hw⟩ := full_positions
  exact ⟨hr.trans hw.symm, _, _, fillRun, fun _ _ => rfl, fill_run⟩

theorem full_file : fullFs.sb.file 0 = ⟨nameA, Function.update emptyTable 0 0, 1⟩ :=
  oneBlock_file 2 _ (Nat.zero_lt_of_lt tab_one)

theorem iBlock_one : iBlock (1 * blockSize) = 1 := by
  have hbs : 0 < blockSize := by simp [blockSize]
  have hoff : 1 * blockSize < maxBlocksPerFile * blockSize := Nat.mul_lt_mul_of_pos_right tab_one hbs
  rw [(iBlock_of_lt hoff).1, Nat.mul_div_cancel _ hbs]

theorem full_unmapped : (fullFs.sb.file 0).block (iBlock (1 * blockSize)) = inactiveBlock := by
  rw [full_file, iBlock_one]
  simp [Function.update, emptyTable, tab_one]

/-- The theorem at the second write of a file in a ring of two cells. -/
theorem second_write_unsafe : ∃ sb' lba,
    myfsGetLba fullFs.sb 0 (1 * blockSize) true = some (sb', lba) ∧
      sb'.free.rp ≠ fullFs.sb.free.wp ∧
      ¬ ExhaustionSafe fullFs.sb sb' 0 (iBlock (1 * blockSize)) :=
  exhaustion_unsafe le_rfl full_exhausted (by rw [iBlock_one]; exact tab_one) full_unmapped

/-- The second block of the file is the first one: both are block 0 of the device. -/
theorem second_write_shares : ∃ s sb' lba,
    run BlockOp.step fillRun (myfsMount (zeroSuperblock 2 (by omega))) = .ok s ∧
      s.sb.free.rp = s.sb.free.wp ∧
      (s.sb.file 0).block 1 = inactiveBlock ∧
      myfsGetLba s.sb 0 (1 * blockSize) true = some (sb', lba) ∧
      (sb'.file 0).block 0 = 0 ∧ (sb'.file 0).block 1 = 0 ∧
      ¬ ExhaustionSafe s.sb sb' 0 1 := by
  have hun := full_unmapped
  have htab : iBlock (1 * blockSize) < maxBlocksPerFile := by rw [iBlock_one]; exact tab_one
  rw [iBlock_one] at hun
  have hcell : fullFs.sb.free.cell fullFs.sb.free.rp = 0 := by
    rw [full_positions.1, fullFs, oneBlock_free 2 _ (Nat.zero_lt_of_lt tab_one)]
    rfl
  obtain ⟨-, hb⟩ := mapBlock_taken hun
  have hget := myfsGetLba_write fullFs.sb 0 htab
  rw [iBlock_one] at hget
  refine ⟨fullFs, _, _, ?_, full_exhausted.1, hun, hget, ?_, ?_, mapBlock_exhausted le_rfl hun⟩
  · rw [mount_zero]
    exact fill_run
  · rw [mapBlock_file hun, Function.update_self, mapFile]
    simp [full_file]
  · rw [hb, hcell]

end Pthabt.Myfs
