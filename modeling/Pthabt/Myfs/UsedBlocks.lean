import Pthabt.Myfs.DeferredUnlink

/-! `myfs_used_blocks` against the sum of `n_block`. The free entries and the counts
together number `N - 1` in every run that takes a block only from a ring that holds
one and opens new files only in slots that count none. The formula then agrees
with the counts at all positions but one: with both positions equal the ring is
empty, and the second case of the formula takes it for a ring that is overfull. -/

namespace Pthabt.Myfs

open Lib Run

variable {N : ℕ}

/-- `myfs_used_blocks`. -/
def myfsUsedBlocks (sb : Superblock N) : ℤ :=
  let rp : ℤ := sb.free.rp
  let wp : ℤ := sb.free.wp
  if rp < wp then rp + N - wp - 1 else rp - wp - 1

/-- An allocation is at an index of a block table and finds the ring with an entry. -/
def IoOp.WithinPool : IoOp → Io N → Prop
  | .myfsGetLba i offset write, s =>
    i < maxFiles ∧ iBlock offset < maxBlocksPerFile ∧
      (write → (s.fs.sb.file i).block (iBlock offset) = inactiveBlock →
        s.fs.sb.free.rp ≠ s.fs.sb.free.wp)
  | .testUnlinked i, _ => i < maxFiles
  | _, _ => True

/-- A new file takes a slot that counts no block. -/
def IoOp.KeepsCount : IoOp → Io N → Prop
  | .myfsOpen filename, s =>
    NoMatch s.fs.sb filename → ∀ i, FirstEmpty s.fs.sb i → (s.fs.sb.file i).nBlock = 0
  | _, _ => True

/-- The free entries and the counted blocks. -/
def accounted (sb : Superblock N) : ℕ := sb.free.size + countedBlocks sb

/-! ### The formula -/

/-- The cells that the ring does not use, unless it is empty. -/
theorem usedBlocks_of_ne {sb : Superblock N} (h : sb.free.rp ≠ sb.free.wp) :
    myfsUsedBlocks sb + sb.free.size + 1 = N := by
  have hr := sb.free.rp_lt
  have hw := sb.free.wp_lt
  have hsize := sb.free.size_eq
  unfold myfsUsedBlocks
  dsimp only
  split_ifs at hsize ⊢ <;> omega

theorem usedBlocks_of_eq {sb : Superblock N} (h : sb.free.rp = sb.free.wp) :
    myfsUsedBlocks sb = -1 := by
  simp [myfsUsedBlocks, h]

theorem usedBlocks_eq_counted {sb : Superblock N} :
    myfsUsedBlocks sb = countedBlocks sb ↔
      accounted sb + 1 = N ∧ sb.free.rp ≠ sb.free.wp := by
  unfold accounted
  by_cases h : sb.free.rp = sb.free.wp
  · have hused := usedBlocks_of_eq h
    constructor
    · intro he
      omega
    · exact fun hne => absurd h hne.2
  · have hused := usedBlocks_of_ne h
    constructor
    · intro he
      exact ⟨by omega, h⟩
    · rintro ⟨ha, -⟩
      omega

/-! ### What one step accounts for -/

theorem accounted_unlink {s : Fs N} (h : BlockInv s.sb) {fd : ℕ} (hfd : fd < maxFiles) :
    accounted (_myfsUnlink s fd).sb = accounted s.sb := by
  have hsize := (unlink_entries h hfd).1
  have hcounted := countedBlocks_update hfd (unlink_file s fd)
  rw [clearFile_nBlock] at hcounted
  unfold accounted
  omega

theorem accounted_tryUnlink {s : Fs N} (h : BlockInv s.sb) {fd : ℕ} (hfd : fd < maxFiles) :
    accounted (_myfsTryUnlink s fd).sb = accounted s.sb := by
  rw [tryUnlink_eq]
  split_ifs
  · exact accounted_unlink h hfd
  · rfl

theorem accounted_unlinkScan {s : Fs N} (h : BlockInv s.sb) (filename : CString) {k : ℕ}
    (hk : k ≤ maxFiles) : accounted (unlinkScan s filename k).sb = accounted s.sb := by
  induction k with
  | zero => rfl
  | succ k ih =>
    have ih := ih (by omega)
    rw [unlinkScan_succ]
    split_ifs
    · rw [accounted_tryUnlink (h.unlinkScan filename (by omega)) (by omega), ih]
    · exact ih

/-- An allocation moves an entry of the ring into a count. -/
theorem accounted_mapBlock {sb : Superblock N} {i b : ℕ} (hi : i < maxFiles)
    (hring : (sb.file i).block b = inactiveBlock → sb.free.rp ≠ sb.free.wp) :
    accounted (mapBlock sb i b) = accounted sb := by
  by_cases hm : (sb.file i).block b = inactiveBlock
  · have hcounted := countedBlocks_update hi (mapBlock_file hm)
    have hsize := sb.free.size_pop (hring hm)
    unfold accounted
    rw [mapBlock_free hm]
    simp only [mapFile] at hcounted
    omega
  · rw [mapBlock_of_mapped hm]

/-- A new file drops what its slot counted. -/
theorem accounted_openNew (s : Fs N) (filename : CString) {i : ℕ} (hi : i < maxFiles) :
    accounted (openNew s filename i).sb + (s.sb.file i).nBlock = accounted s.sb := by
  have hcounted := countedBlocks_update hi (openNew_file s filename i)
  have hfree : (openNew s filename i).sb.free = s.sb.free := rfl
  unfold accounted
  rw [hfree]
  dsimp only at hcounted
  omega

/-- What a step leaves accounted for: no more than before, and no less when it keeps the counts. -/
structure Accounts (kept : Prop) (sb sb' : Superblock N) : Prop where
  inv : BlockInv sb'
  le : accounted sb' ≤ accounted sb
  eq_iff : accounted sb' = accounted sb ↔ kept

theorem Accounts.of_eq {kept : Prop} {sb sb' : Superblock N} (hk : kept) (hinv : BlockInv sb')
    (h : accounted sb' = accounted sb) : Accounts kept sb sb' :=
  ⟨hinv, h.le, iff_of_true h hk⟩

theorem accounts_open {s : Io N} (h : BlockInv s.fs.sb) {filename : CString} {fs : Fs N} {k : ℕ}
    (ho : OpenResult s.fs filename fs k) :
    Accounts (IoOp.KeepsCount (.myfsOpen filename) s) s.fs.sb fs.sb := by
  have hinv := h.openResult ho
  rcases ho with ⟨hm, rfl⟩ | ⟨hno, he, -, rfl⟩
  · exact .of_eq (fun hno => absurd hno hm.not_noMatch) hinv rfl
  · have hacc := accounted_openNew s.fs filename he.1
    refine ⟨hinv, by omega, ?_⟩
    constructor
    · intro heq _ i hi
      obtain rfl := he.unique hi
      omega
    · intro hkeep
      have hzero := hkeep hno k he
      omega

theorem accounts_getLba {s : Io N} (h : BlockInv s.fs.sb) {i offset : ℕ} {write : Bool}
    (hA : (IoOp.myfsGetLba i offset write).WithinPool s) {sb : Superblock N} {lba : ℕ}
    (hg : myfsGetLba s.fs.sb i offset write = some (sb, some lba)) :
    Accounts (IoOp.KeepsCount (.myfsGetLba i offset write) s) s.fs.sb sb := by
  obtain ⟨hi, hlt, hring⟩ := hA
  cases write with
  | false =>
    simp only [myfsGetLba, if_pos hlt, Bool.false_eq_true, ↓reduceIte, Option.some.injEq,
      Prod.mk.injEq] at hg
    obtain ⟨rfl, -⟩ := hg
    exact .of_eq trivial h rfl
  | true =>
    have hring := hring rfl
    rw [myfsGetLba_write _ _ hlt, Option.some.injEq, Prod.mk.injEq] at hg
    obtain ⟨rfl, hg⟩ := hg
    split_ifs at hg with hm
    exact .of_eq trivial (h.mapBlock hi hlt hring hm) (accounted_mapBlock hi hring)

theorem accounts_step (o : IoOp) (s : Io N) (h : BlockInv s.fs.sb) (hA : o.WithinPool s) :
    (o.step s).After fun s' => Accounts (o.KeepsCount s) s.fs.sb s'.fs.sb := by
  cases o with
  | myfsOpen filename =>
    rw [IoOp.step, Io.openStep]
    cases ho : myfsOpen s.fs filename with
    | none => trivial
    | some r => exact accounts_open h (myfsOpen_eq_some.mp ho)
  | myfsUnlink filename =>
    exact .of_eq trivial (h.myfsUnlink filename) (accounted_unlinkScan h filename le_rfl)
  | myfsGetLba i offset write =>
    rw [IoOp.step, Io.getLbaStep]
    cases hg : myfsGetLba s.fs.sb i offset write with
    | none => trivial
    | some r =>
      obtain ⟨sb, lba | lba⟩ := r
      · trivial
      · exact accounts_getLba h hA hg
  | testOpen i =>
    have hsb : (s.testOpen i).fs.sb = s.fs.sb := by
      rw [Io.testOpen]
      split_ifs <;> rfl
    change Accounts _ _ (s.testOpen i).fs.sb
    rw [hsb]
    exact .of_eq trivial h rfl
  | testUnlinked i =>
    change Accounts _ _ (s.testUnlinked i).fs.sb
    rw [Io.testUnlinked]
    dsimp only
    split_ifs
    · exact .of_eq trivial (h.tryUnlink hA) (accounted_tryUnlink h hA)
    · exact .of_eq trivial h rfl
  | myfsClose fd => exact .of_eq trivial h rfl
  | increment i => exact .of_eq trivial h rfl
  | decrement i => exact .of_eq trivial h rfl

/-- Along a run nothing is lost exactly when every step keeps the counts. -/
theorem accounts_run {ops : List IoOp} :
    ∀ {s t : Io N}, BlockInv s.fs.sb → Meets IoOp.step IoOp.WithinPool ops s →
      run IoOp.step ops s = .ok t →
        Accounts (Meets IoOp.step IoOp.KeepsCount ops s) s.fs.sb t.fs.sb := by
  induction ops with
  | nil =>
    intro s t h _ ht
    simp only [run_nil, Outcome.ok.injEq] at ht
    subst ht
    exact .of_eq trivial h rfl
  | cons o ops ih =>
    intro s t h hA ht
    obtain ⟨u, hu, ht⟩ := Outcome.bind_eq_ok ht
    have hstep := accounts_step o s h hA.1
    have hAu := hA.2
    rw [hu, Outcome.after_ok] at hstep hAu
    have hrest := ih hstep.inv hAu ht
    refine ⟨hrest.inv, hrest.le.trans hstep.le, ?_⟩
    rw [meets_cons, hu, Outcome.after_ok, ← hstep.eq_iff, ← hrest.eq_iff]
    have := hstep.le
    have := hrest.le
    omega

/-! ### Runs from a fresh superblock -/

section Init

variable {sb : Superblock N}

theorem init_accounted (hn : ∀ i < maxFiles, (sb.file i).nBlock = 0) :
    accounted (myfsSuperblockInit sb) + 1 = N := by
  have hpos := sb.free.pos
  have hcounted : countedBlocks (myfsSuperblockInit sb) = 0 := by
    unfold countedBlocks tableSum
    exact Finset.sum_eq_zero fun i hi => (init_nBlock sb i).trans (hn i (Finset.mem_range.mp hi))
  rw [accounted, init_size, hcounted]
  omega

/-- The function counts the used blocks exactly while some block is free and every file was created
in a slot that counted none. -/
theorem used_blocks_iff (hn : ∀ i < maxFiles, (sb.file i).nBlock = 0) (states : ℕ → FileState)
    {ops : List IoOp} {s : Io N}
    (hA : Meets IoOp.step IoOp.WithinPool ops (Io.idle ⟨myfsSuperblockInit sb, states⟩))
    (hrun : run IoOp.step ops (Io.idle ⟨myfsSuperblockInit sb, states⟩) = .ok s) :
    myfsUsedBlocks s.fs.sb = countedBlocks s.fs.sb ↔
      Meets IoOp.step IoOp.KeepsCount ops (Io.idle ⟨myfsSuperblockInit sb, states⟩) ∧
        s.fs.sb.free.rp ≠ s.fs.sb.free.wp := by
  have hinit : accounted (Io.idle ⟨myfsSuperblockInit sb, states⟩).fs.sb + 1 = N := init_accounted hn
  have hacc := accounts_run (init_sound hn states).1 hA hrun
  rw [usedBlocks_eq_counted, ← hacc.eq_iff]
  have := hacc.le
  constructor
  · rintro ⟨h, hne⟩
    exact ⟨by omega, hne⟩
  · rintro ⟨h, hne⟩
    exact ⟨by omega, hne⟩

end Init

/-! ### One written block -/

section Examples

variable (hN : 1 < N)

/-- Open a new file and write its first block. -/
def fillOps : List IoOp := [.myfsOpen nameA, .testOpen 0, .increment 0, .myfsGetLba 0 0 true]

theorem fillOps_run :
    run IoOp.step fillOps (Io.idle (freshFs N hN)) = .ok (writing hN) := by
  rw [fillOps, run_cons, idle_open, Outcome.bind_ok, run_cons, IoOp.step, Outcome.bind_ok,
    run_cons, IoOp.step, Outcome.bind_ok, run_cons, IoOp.step, writing_getLba, Outcome.bind_ok,
    run_nil]

theorem fillOps_withinPool :
    Meets IoOp.step IoOp.WithinPool fillOps (Io.idle (freshFs N hN)) := by
  obtain ⟨-, -, -, hring⟩ := oneFile_admissible N hN tab_pos
  rw [Nat.zero_mul, Nat.zero_div] at hring
  have hsb : (((Io.idle (oneFile N hN)).testOpen 0).increment 0).fs.sb = (oneFile N hN).sb := by
    rw [testOpen_open (oneFile_flags hN)]
    rfl
  refine ⟨trivial, ?_⟩
  rw [idle_open, Outcome.after_ok]
  refine ⟨trivial, trivial, ⟨maxFiles_pos, iBlock_zero.symm ▸ tab_pos, fun _ => ?_⟩, ?_⟩
  · rw [hsb, iBlock_zero]
    exact hring
  · exact .of_forall (fun _ => trivial) _

theorem fillOps_keepsCount :
    Meets IoOp.step IoOp.KeepsCount fillOps (Io.idle (freshFs N hN)) := by
  refine ⟨fun _ i hi => ?_, ?_⟩
  · change ((freshFs N hN).sb.file i).nBlock = 0
    rw [fresh_file N hN hi.1]
  · rw [idle_open, Outcome.after_ok]
    exact ⟨trivial, trivial, trivial, .of_forall (fun _ => trivial) _⟩

theorem oneFile_dense : Dense (oneFile N hN).sb := by
  intro i hi j hj
  by_cases h0 : i = 0
  · subst h0
    simp [oneFile_file, emptyTable, hj]
  · have hf : (oneFile N hN).sb.file i = (freshFs N hN).sb.file i :=
      Superblock.setFile_of_ne _ _ h0
    simp [hf, fresh_file N hN hi, emptyTable, hj]

theorem writing_dense : Dense (writing hN).fs.sb := by
  obtain ⟨-, -, -, hring⟩ := oneFile_admissible N hN tab_pos
  rw [Nat.zero_mul, Nat.zero_div] at hring
  have hok := mapBlock_mapped (oneFile_sound N hN).1 (oneFile_sound N hN).2 hring
  exact (mapBlock_dense (oneFile_dense hN) maxFiles_pos tab_pos (Nat.zero_le _) hok).1

theorem writing_positions :
    (writing hN).fs.sb.free.rp = 1 ∧ (writing hN).fs.sb.free.wp = N - 1 := by
  have hfree : (writing hN).fs.sb.free = (oneFile N hN).sb.free.pop := oneBlock_free N hN tab_pos
  rw [hfree, Cyclic.pop_rp, Cyclic.pop_wp, (oneFile_positions N hN).1, (oneFile_positions N hN).2,
    Nat.zero_add, Nat.mod_eq_of_lt hN]
  exact ⟨rfl, rfl⟩

theorem writing_accounted : accounted (writing hN).fs.sb + 1 = N := by
  have hacc := accounts_run (fresh_sound N hN).1 (fillOps_withinPool hN) (fillOps_run hN)
  rw [hacc.eq_iff.mpr (fillOps_keepsCount hN)]
  exact init_accounted fun _ _ => rfl

end Examples

/-- The theorem at a pool of two blocks with one of them used. -/
theorem used_blocks_one : myfsUsedBlocks (writing (Nat.one_lt_succ_succ 1)).fs.sb =
    countedBlocks (writing (Nat.one_lt_succ_succ 1)).fs.sb := by
  have hN : 1 < 3 := by decide
  refine (used_blocks_iff (fun _ _ => rfl) _ (fillOps_withinPool hN) (fillOps_run hN)).mpr
    ⟨fillOps_keepsCount hN, ?_⟩
  rw [(writing_positions hN).1, (writing_positions hN).2]
  decide

/-- With the only block of a pool used, the function returns a negative count. -/
theorem full_pool_used : ∃ s : Io 2,
    Meets IoOp.step IoOp.WithinPool fillOps (Io.idle (myfsMount (zeroSuperblock 2 Nat.one_lt_two))) ∧
      run IoOp.step fillOps (Io.idle (myfsMount (zeroSuperblock 2 Nat.one_lt_two))) = .ok s ∧
      Dense s.fs.sb ∧ countedBlocks s.fs.sb = 1 ∧ myfsUsedBlocks s.fs.sb = -1 := by
  have hN : 1 < 2 := by decide
  have hempty : (writing hN).fs.sb.free.rp = (writing hN).fs.sb.free.wp := by
    rw [(writing_positions hN).1, (writing_positions hN).2]
  have hacc := writing_accounted hN
  have hsize := (writing hN).fs.sb.free.size_eq_zero.mpr hempty
  unfold accounted at hacc
  rw [mount_zero]
  exact ⟨writing hN, fillOps_withinPool hN, fillOps_run hN, writing_dense hN, by omega,
    usedBlocks_of_eq hempty⟩

end Pthabt.Myfs
