import Pthabt.Myfs.Conservation

/-! The files of a directory while they are written without holes: blocks are mapped from index 0
on, as many as `n_block` counts, and the names tell the slots apart. -/

namespace Pthabt.Myfs

open Lib

variable {N : ℕ}

/-- Names that a directory can tell apart. -/
structure Distinguished (names : CString → Prop) : Prop where
  nonempty : ∀ f, names f → f ≠ CString.empty
  short : ∀ f, names f → f.strlen < maxNamelen
  prefix_free : ∀ f g, names f → names g → f.IsPrefix g → f = g

/-- A directory of such files; `opened` are the descriptors in use. -/
structure Directory (names : CString → Prop) (sb : Superblock N) (opened : ℕ → Option CString) :
    Prop where
  inv : BlockInv sb
  conserved : Conserved sb
  dense : ∀ i < maxFiles, ∀ j < maxBlocksPerFile,
    (sb.file i).block j ≠ inactiveBlock ↔ j < (sb.file i).nBlock
  named : ∀ i < maxFiles, (sb.file i).name ≠ CString.empty → names (sb.file i).name
  distinct : ∀ i < maxFiles, ∀ k < maxFiles, (sb.file i).name ≠ CString.empty →
    (sb.file i).name = (sb.file k).name → i = k
  unused : ∀ i < maxFiles, (sb.file i).name = CString.empty → (sb.file i).nBlock = 0
  opened : ∀ i f, opened i = some f → i < maxFiles ∧ (sb.file i).name = f ∧ names f

section Directory

variable {names : CString → Prop} {sb : Superblock N} {opened : ℕ → Option CString} {f : CString}

theorem Directory.nBlock_le (h : Directory names sb opened) {i : ℕ} (hi : i < maxFiles) :
    (sb.file i).nBlock ≤ maxBlocksPerFile := h.inv.nBlock_le_max hi

theorem Directory.not_holed (h : Directory names sb opened) {i : ℕ} (hi : i < maxFiles) :
    ¬ Holed (sb.file i) := by
  rintro ⟨j, hj, hb⟩
  exact (h.dense i hi j (lt_of_lt_of_le hj (h.nBlock_le hi))).mpr hj hb

/-- A directory without files, all of whose blocks are in the ring. -/
theorem directory_of_unused (hfree : sb.free.entries = allBlocks N)
    (hfile : ∀ i < maxFiles, sb.file i = ⟨CString.empty, emptyTable, 0⟩) :
    Directory names sb fun _ => none := by
  have hempty : ∀ i < maxFiles, ∀ j < maxBlocksPerFile, (sb.file i).block j = inactiveBlock := by
    intro i hi j hj
    rw [hfile i hi]
    exact if_pos hj
  have hn : ∀ i < maxFiles, (sb.file i).nBlock = 0 := fun i hi => by rw [hfile i hi]
  have hname : ∀ i < maxFiles, (sb.file i).name = CString.empty := fun i hi => by rw [hfile i hi]
  obtain ⟨hinv, hc⟩ := sound_of_unused hfree hempty hn fun _ => ⟨⟨false, false⟩, 0⟩
  refine ⟨hinv, hc, ?_, ?_, ?_, ?_, ?_⟩
  · intro i hi j hj
    rw [hn i hi]
    exact iff_of_false (not_not_intro (hempty i hi j hj)) (Nat.not_lt_zero j)
  · exact fun i hi he => absurd (hname i hi) he
  · exact fun i hi _ _ he => absurd (hname i hi) he
  · exact fun i hi _ => hn i hi
  · exact fun i f h => nomatch h

/-- A name matches the slot that has it. -/
theorem Directory.nameMatches_iff (h : Directory names sb opened) (hn : Distinguished names)
    (hf : names f) {i : ℕ} (hi : i < maxFiles) : nameMatches sb f i ↔ (sb.file i).name = f := by
  rw [Myfs.nameMatches_iff]
  constructor
  · intro hp
    by_cases he : (sb.file i).name = CString.empty
    · rw [he] at hp
      exact absurd hp (CString.not_isPrefix_empty (hn.nonempty f hf))
    · exact (hn.prefix_free f _ hf (h.named i hi he) hp).symm
  · rintro rfl
    exact CString.isPrefix_refl _

/-- A slot that is named so. -/
theorem Directory.eq_of_name (h : Directory names sb opened) (hn : Distinguished names)
    (hf : names f) {i k : ℕ} (hi : i < maxFiles) (hk : k < maxFiles) (hif : (sb.file i).name = f)
    (hkf : (sb.file k).name = f) : i = k :=
  h.distinct i hi k hk (by rw [hif]; exact hn.nonempty f hf) (hif.trans hkf.symm)

/-- Slots keep their blocks; one of them may take a name. -/
structure Renamed (sb sb' : Superblock N) (f : CString) (i : ℕ) : Prop where
  block : ∀ k, (sb'.file k).block = (sb.file k).block
  nBlock : ∀ k < maxFiles, (sb'.file k).nBlock = (sb.file k).nBlock
  name : ∀ k, k ≠ i → (sb'.file k).name = (sb.file k).name
  old : (sb.file i).name = f ∨ (sb.file i).name = CString.empty
  new : (sb'.file i).name = f

/-- The slot that `myfs_open` returns, and takes where there was none of the name. -/
theorem Directory.renamed {s s' : Fs N} {i : ℕ} (h : Directory names s.sb opened) (hn : Distinguished names)
    (hf : names f) (ho : OpenResult s f s' i) : i < maxFiles ∧ Renamed s.sb s'.sb f i ∧
      ∀ k < maxFiles, (s.sb.file k).name = f → k = i := by
  rcases ho with ⟨⟨hi, hm, -⟩, rfl⟩ | ⟨hno, ⟨hi, he, -⟩, -, rfl⟩
  · have hname := (h.nameMatches_iff hn hf hi).mp hm
    exact ⟨hi, ⟨fun _ => rfl, fun _ _ => rfl, fun _ _ => rfl, .inl hname, hname⟩,
      fun k hk hkf => h.eq_of_name hn hf hk hi hkf hname⟩
  · refine ⟨hi, ⟨fun k => ?_, fun k hk => ?_, fun k hk => ?_, .inr he, ?_⟩, fun k hk hkf => ?_⟩
    · rw [openNew_file]
      by_cases hki : k = i
      · subst hki
        rw [Function.update_self]
      · rw [Function.update_of_ne hki]
    · rw [openNew_file]
      by_cases hki : k = i
      · subst hki
        rw [Function.update_self]
        exact (h.unused k hk he).symm
      · rw [Function.update_of_ne hki]
    · rw [openNew_file, Function.update_of_ne hk]
    · rw [openNew_file, Function.update_self]
    · exact absurd ((h.nameMatches_iff hn hf hk).mpr hkf) (hno k hk)

/-- A slot takes a name that no other one has. -/
theorem Directory.rename {sb' : Superblock N} {i : ℕ} (h : Directory names sb opened) (hn : Distinguished names)
    (hf : names f) (hinv : BlockInv sb') (hcons : Conserved sb') (hi : i < maxFiles) (hren : Renamed sb sb' f i)
    (honly : ∀ k < maxFiles, (sb.file k).name = f → k = i) :
    Directory names sb' (Function.update opened i (some f)) := by
  refine ⟨hinv, hcons, ?_, ?_, ?_, ?_, ?_⟩
  · intro k hk j hj
    rw [hren.block, hren.nBlock k hk]
    exact h.dense k hk j hj
  · intro k hk he
    by_cases hki : k = i
    · subst hki
      rwa [hren.new]
    · rw [hren.name k hki] at he ⊢
      exact h.named k hk he
  · intro k hk l hl he heq
    by_cases hki : k = i
    · by_cases hli : l = i
      · exact hki.trans hli.symm
      · rw [hki, hren.new, hren.name l hli] at heq
        exact absurd (honly l hl heq.symm) hli
    · by_cases hli : l = i
      · rw [hli, hren.new, hren.name k hki] at heq
        exact absurd (honly k hk heq) hki
      · rw [hren.name k hki] at he
        rw [hren.name k hki, hren.name l hli] at heq
        exact h.distinct k hk l hl he heq
  · intro k hk he
    rw [hren.nBlock k hk]
    by_cases hki : k = i
    · subst hki
      rw [hren.new] at he
      exact absurd he (hn.nonempty f hf)
    · rw [hren.name k hki] at he
      exact h.unused k hk he
  · intro k g hkg
    by_cases hki : k = i
    · subst hki
      rw [Function.update_self] at hkg
      obtain rfl := Option.some.inj hkg
      exact ⟨hi, hren.new, hf⟩
    · rw [Function.update_of_ne hki] at hkg
      rw [hren.name k hki]
      exact h.opened k g hkg

/-- `myfs_open` of a file that no descriptor is for. -/
theorem Directory.open_ {s s' : Fs N} {i : ℕ} (h : Directory names s.sb opened)
    (hn : Distinguished names) (hf : names f) (ho : OpenResult s f s' i)
    (hclosed : ∀ d, opened d ≠ some f) :
    Directory names s'.sb (Function.update opened i (some f)) ∧ i < maxFiles ∧
      opened i = none ∧ Renamed s.sb s'.sb f i := by
  have hinv := h.inv.openResult ho
  have hcons : Conserved s'.sb := by
    rw [hinv.conserved_iff, openResult_free ho]
    exact h.inv.conserved_iff.mp h.conserved
  obtain ⟨hi, hren, honly⟩ := h.renamed hn hf ho
  have hnone : opened i = none := by
    cases hop : opened i with
    | none => rfl
    | some g =>
      obtain ⟨-, hg, hgn⟩ := h.opened i g hop
      rcases hren.old with hold | hold
      · exact absurd (hop.trans (congrArg some (hg.symm.trans hold))) (hclosed i)
      · exact absurd (hg.symm.trans hold) (hn.nonempty g hgn)
  exact ⟨h.rename hn hf hinv hcons hi hren honly, hi, hnone, hren⟩

theorem Directory.close (h : Directory names sb opened) (fd : ℕ) :
    Directory names sb (Function.update opened fd none) :=
  { h with
    opened := fun i f hif => by
      by_cases hi : i = fd
      · subst hi
        rw [Function.update_self] at hif
        cases hif
      · rw [Function.update_of_ne hi] at hif
        exact h.opened i f hif }

/-- `myfs_unlink` clears the slot with that name. -/
theorem Directory.unlink_file {s : Fs N} (h : Directory names s.sb opened) (hn : Distinguished names)
    (hf : names f) (hrc : ∀ i < maxFiles, (s.states i).refCount = 0) {i : ℕ} (hi : i < maxFiles) :
    (myfsUnlink s f).sb.file i =
      if (s.sb.file i).name = f then clearFile (s.sb.file i) else s.sb.file i := by
  rw [myfsUnlink_file s f hi]
  have hiff : Released s f i ↔ (s.sb.file i).name = f := by
    rw [Released, h.nameMatches_iff hn hf hi]
    exact and_iff_left (hrc i hi)
  simp only [hiff]

theorem Directory.unlink {s : Fs N} (h : Directory names s.sb opened) (hn : Distinguished names)
    (hf : names f) (hrc : ∀ i < maxFiles, (s.states i).refCount = 0)
    (hclosed : ∀ d, opened d ≠ some f) : Directory names (myfsUnlink s f).sb opened := by
  have hfile := fun i hi => h.unlink_file hn hf hrc (i := i) hi
  refine ⟨h.inv.myfsUnlink f, ?_, ?_, ?_, ?_, ?_, ?_⟩
  · exact (unlink_conserved_iff h.inv h.conserved f).mpr fun i hi _ => h.not_holed hi
  · intro i hi j hj
    rw [hfile i hi]
    split_ifs
    · rw [clearFile_nBlock]
      refine iff_of_false (fun hb => ?_) (Nat.not_lt_zero j)
      simp only [clearFile, clearTable] at hb
      split_ifs at hb with hlt
      · exact hb rfl
      · exact hlt ((h.dense i hi j hj).mp hb)
    · exact h.dense i hi j hj
  · intro i hi he
    rw [hfile i hi] at he ⊢
    split_ifs at he ⊢
    · exact absurd rfl he
    · exact h.named i hi he
  · intro i hi k hk he heq
    rw [hfile i hi] at he heq
    rw [hfile k hk] at heq
    split_ifs at he heq with h1 h2
    · exact absurd rfl he
    · exact absurd rfl he
    · exact absurd heq he
    · exact h.distinct i hi k hk he heq
  · intro i hi he
    rw [hfile i hi] at he ⊢
    split_ifs at he ⊢
    · rfl
    · exact h.unused i hi he
  · intro i g hig
    obtain ⟨hi, hname, hg⟩ := h.opened i g hig
    refine ⟨hi, ?_, hg⟩
    rw [hfile i hi, if_neg fun he => hclosed i (hig.trans (congrArg some (hname.symm.trans he)))]
    exact hname

/-- A write at the end of a file maps its next block. -/
theorem Directory.mapBlock (h : Directory names sb opened) {i b : ℕ} (hi : i < maxFiles)
    (hb : b < maxBlocksPerFile) (hle : b ≤ (sb.file i).nBlock) (hname : (sb.file i).name ≠ CString.empty)
    (hring : (sb.file i).block b = inactiveBlock → sb.free.rp ≠ sb.free.wp) :
    Directory names (mapBlock sb i b) opened ∧ b < ((Myfs.mapBlock sb i b).file i).nBlock := by
  obtain ⟨hinv, hcons⟩ := mapBlock_conserved h.inv h.conserved hi hb hring
  obtain ⟨hdense, hlt⟩ := mapBlock_dense h.dense hi hb hle (mapBlock_mapped h.inv h.conserved hring)
  refine ⟨⟨hinv, hcons, hdense, ?_, ?_, ?_, ?_⟩, hlt⟩
  · intro k hk
    rw [mapBlock_name]
    exact h.named k hk
  · intro k hk l hl
    rw [mapBlock_name, mapBlock_name]
    exact h.distinct k hk l hl
  · intro k hk he
    rw [mapBlock_name] at he
    by_cases hki : k = i
    · subst hki
      exact absurd he hname
    · rw [mapBlock_file_of_ne sb hki]
      exact h.unused k hk he
  · intro k g hkg
    rw [mapBlock_name]
    exact h.opened k g hkg

end Directory

/-! ### Flags and counts of calls made one after the other -/

section States

variable {s : Fs N} {fd : ℕ}

theorem incrementRef_of_opened (h : s.states fd = ⟨⟨true, false⟩, 0⟩) :
    (myfsIncrementRef s fd).1 = s.setState fd ⟨⟨true, false⟩, 1⟩ := by
  have hflags : (s.states fd).flags = fileOpened := by rw [h]; rfl
  rw [myfsIncrementRef, if_pos hflags, fetchAndAdd, h]
  rfl

theorem decrementRef_of_last {b : Bool} (h : s.states fd = ⟨⟨b, false⟩, 1⟩) :
    myfsDecrementRef s fd = s.setState fd ⟨⟨b, false⟩, 0⟩ := by
  have hcount : ((s.states fd).refCount + (2 ^ 16 - 1)) % 2 ^ 16 = 0 := by
    have hone : (s.states fd).refCount = 1 := by rw [h]
    omega
  have hne : ¬ ((s.states fd).refCount = 0 ∧
      ((fetchAndAdd s fd (2 ^ 16 - 1)).states fd).flags.unlinked = true) := by
    rintro ⟨hzero, -⟩
    rw [h] at hzero
    cases hzero
  rw [myfsDecrementRef, if_neg hne, fetchAndAdd, hcount, h]

theorem close_states (s : Fs N) (fd i : ℕ) : (myfsClose s fd).states i =
    if i = fd then ⟨⟨!(s.states fd).flags.opened, (s.states fd).flags.unlinked⟩, (s.states fd).refCount⟩
    else s.states i := by
  rw [myfsClose]
  split_ifs with hi
  · rw [hi, Fs.setState_self]
  · exact Fs.setState_of_ne s _ hi

/-- `myfs_open` sets the flags of its slot. -/
theorem openResult_states {s' : Fs N} {f : CString} {i : ℕ} (ho : OpenResult s f s' i) (k : ℕ) :
    s'.states k = if k = i then ⟨fileOpened, (s.states i).refCount⟩ else s.states k := by
  rcases ho with ⟨-, rfl⟩ | ⟨-, -, -, rfl⟩
  · rw [openFound]
    split_ifs with hk
    · rw [hk, Fs.setState_self]
    · exact Fs.setState_of_ne s _ hk
  · rw [openNew]
    split_ifs with hk
    · rw [hk, Fs.setState_self]
    · exact Fs.setState_of_ne _ _ hk

end States

end Pthabt.Myfs
