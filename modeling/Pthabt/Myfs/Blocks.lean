import Pthabt.Lib.Table
import Pthabt.Myfs.Superblock

/-! The block numbers held by the free ring and by the block tables, and what each
operation of myfs moves between the two. Apart from `inactiveBlock` itself, which an
unlink of a file with holes stores in the ring, the numbers of ring and tables are
always `0 .. N - 2`, each once, as long as no allocation finds the ring empty. -/

namespace Pthabt.Myfs

open Lib

variable {N : ℕ}

/-- The number held by one entry of a block table. -/
def live (b : ℤ) : Multiset ℤ := if b = inactiveBlock then 0 else {b}

/-- The mapped blocks of a file. -/
def fileBlocks (f : File) : Multiset ℤ := tableSum live maxBlocksPerFile f.block

/-- The mapped blocks of all files. -/
def mappedBlocks (sb : Superblock N) : Multiset ℤ := tableSum fileBlocks maxFiles sb.file

/-- The first `n` entries of a block table, mapped or not. -/
def heldBlocks (f : File) (n : ℕ) : Multiset ℤ := (Multiset.range n).map f.block

/-- Every block number there is. -/
def allBlocks (N : ℕ) : Multiset ℤ := (Multiset.range (N - 1)).map Nat.cast

/-- The sum of `n_block` over all files. -/
def countedBlocks (sb : Superblock N) : ℕ := tableSum File.nBlock maxFiles sb.file

/-- Some entry that `n_block` covers is not mapped. -/
def Holed (f : File) : Prop := ∃ j < f.nBlock, f.block j = inactiveBlock

/-- The ring and the block tables together hold every block number once. -/
def Conserved (sb : Superblock N) : Prop := sb.free.entries + mappedBlocks sb = allBlocks N

/-- What holds of the blocks whether or not a file with holes was unlinked. -/
structure BlockInv (sb : Superblock N) : Prop where
  live : sb.free.entries.filter (· ≠ inactiveBlock) + mappedBlocks sb = allBlocks N
  fits : sb.free.size + countedBlocks sb < N
  nBlock_le : ∀ i < maxFiles, (sb.file i).nBlock ≤ (fileBlocks (sb.file i)).card

@[simp] theorem live_inactive : live inactiveBlock = 0 := by simp [live]

theorem live_of_ne {b : ℤ} (h : b ≠ inactiveBlock) : live b = {b} := by simp [live, h]

theorem card_live_le (b : ℤ) : (live b).card ≤ 1 := by
  unfold live
  split_ifs <;> simp

theorem card_fileBlocks_le (f : File) : (fileBlocks f).card ≤ maxBlocksPerFile := by
  rw [fileBlocks, card_tableSum]
  refine (Finset.sum_le_card_nsmul _ _ 1 fun j _ => card_live_le (f.block j)).trans ?_
  simp

theorem inactive_notMem_allBlocks : inactiveBlock ∉ allBlocks N := by
  simp [allBlocks, inactiveBlock]

@[simp] theorem card_allBlocks : (allBlocks N).card = N - 1 := by simp [allBlocks]

theorem nodup_allBlocks : (allBlocks N).Nodup :=
  (Multiset.nodup_range _).map Nat.cast_injective

theorem mem_allBlocks {b : ℤ} : b ∈ allBlocks N ↔ 0 ≤ b ∧ b < N - 1 := by
  simp only [allBlocks, Multiset.mem_map, Multiset.mem_range]
  constructor
  · rintro ⟨k, hk, rfl⟩
    omega
  · rintro ⟨h0, h1⟩
    exact ⟨b.toNat, by omega, by omega⟩

theorem inactive_mem_heldBlocks (f : File) (n : ℕ) :
    inactiveBlock ∈ heldBlocks f n ↔ ∃ j < n, f.block j = inactiveBlock := by
  simp [heldBlocks]

/-- The entries that are mapped, among the first `n`. -/
theorem filter_heldBlocks (f : File) (n : ℕ) :
    (heldBlocks f n).filter (· ≠ inactiveBlock) = tableSum live n f.block := by
  induction n with
  | zero => rfl
  | succ n ih =>
    have hsplit : tableSum live (n + 1) f.block = tableSum live n f.block + live (f.block n) :=
      Finset.sum_range_succ _ n
    have hheld : heldBlocks f (n + 1) = f.block n ::ₘ heldBlocks f n := by
      simp [heldBlocks, Multiset.range_succ]
    rw [hheld, hsplit, ← ih]
    by_cases hb : f.block n = inactiveBlock
    · rw [Multiset.filter_cons_of_neg (p := (· ≠ inactiveBlock)) _ (not_not_intro hb), hb,
        live_inactive, add_zero]
    · rw [Multiset.filter_cons_of_pos (p := (· ≠ inactiveBlock)) _ hb, live_of_ne hb, add_comm,
        Multiset.singleton_add]

/-! ### One changed entry -/

theorem fileBlocks_update {f : File} {j : ℕ} (hj : j < maxBlocksPerFile) (x : ℤ) (n : ℕ) :
    fileBlocks { f with block := Function.update f.block j x, nBlock := n } + live (f.block j) =
      fileBlocks f + live x :=
  tableSum_update live hj f.block x

theorem mappedBlocks_update {sb sb' : Superblock N} {i : ℕ} (hi : i < maxFiles) {f : File}
    (h : sb'.file = Function.update sb.file i f) :
    mappedBlocks sb' + fileBlocks (sb.file i) = mappedBlocks sb + fileBlocks f := by
  unfold mappedBlocks
  rw [h]
  exact tableSum_update fileBlocks hi sb.file f

theorem countedBlocks_update {sb sb' : Superblock N} {i : ℕ} (hi : i < maxFiles) {f : File}
    (h : sb'.file = Function.update sb.file i f) :
    countedBlocks sb' + (sb.file i).nBlock = countedBlocks sb + f.nBlock := by
  unfold countedBlocks
  rw [h]
  exact tableSum_update File.nBlock hi sb.file f

theorem fileBlocks_le_mapped (sb : Superblock N) {i : ℕ} (hi : i < maxFiles) :
    fileBlocks (sb.file i) ≤ mappedBlocks sb :=
  le_tableSum hi sb.file

theorem nBlock_le_counted (sb : Superblock N) {i : ℕ} (hi : i < maxFiles) :
    (sb.file i).nBlock ≤ countedBlocks sb := by
  rw [countedBlocks, tableSum_split File.nBlock hi]
  omega

theorem mem_fileBlocks {f : File} {j : ℕ} (hj : j < maxBlocksPerFile)
    (h : f.block j ≠ inactiveBlock) : f.block j ∈ fileBlocks f := by
  have hlive : f.block j ∈ live (f.block j) := by simp [live_of_ne h]
  exact Multiset.mem_of_le (le_tableSum hj f.block) hlive

theorem BlockInv.nodup_mapped {sb : Superblock N} (h : BlockInv sb) : (mappedBlocks sb).Nodup := by
  refine Multiset.nodup_of_le ?_ (nodup_allBlocks (N := N))
  rw [← h.live]
  exact Multiset.le_add_left _ _

/-- A mapped block belongs to one index of one file. -/
theorem mapped_inj {sb : Superblock N} (hnd : (mappedBlocks sb).Nodup) {i k j l : ℕ}
    (hi : i < maxFiles) (hk : k < maxFiles) (hj : j < maxBlocksPerFile) (hl : l < maxBlocksPerFile)
    (hne : (sb.file i).block j ≠ inactiveBlock) (heq : (sb.file i).block j = (sb.file k).block l) :
    i = k ∧ j = l := by
  have hmi := mem_fileBlocks hj hne
  have hmk : (sb.file i).block j ∈ fileBlocks (sb.file k) := by
    rw [heq] at hne ⊢
    exact mem_fileBlocks hl hne
  obtain rfl := cell_eq_of_mem hnd hi hk hmi hmk
  refine ⟨rfl, ?_⟩
  have hnd' := Multiset.nodup_of_le (fileBlocks_le_mapped sb hi) hnd
  refine cell_eq_of_mem (x := (sb.file i).block j) hnd' hj hl ?_ ?_
  · simp [live_of_ne hne]
  · rw [← heq]
    simp [live_of_ne hne]

theorem BlockInv.mapped_inj {sb : Superblock N} (h : BlockInv sb) {i k j l : ℕ} (hi : i < maxFiles)
    (hk : k < maxFiles) (hj : j < maxBlocksPerFile) (hl : l < maxBlocksPerFile)
    (hne : (sb.file i).block j ≠ inactiveBlock) (heq : (sb.file i).block j = (sb.file k).block l) :
    i = k ∧ j = l :=
  Myfs.mapped_inj h.nodup_mapped hi hk hj hl hne heq

theorem BlockInv.nBlock_le_max {sb : Superblock N} (h : BlockInv sb) {i : ℕ} (hi : i < maxFiles) :
    (sb.file i).nBlock ≤ maxBlocksPerFile :=
  (h.nBlock_le i hi).trans (card_fileBlocks_le _)

/-- A state of the invariant is conserved exactly when the ring holds no `inactiveBlock`. -/
theorem BlockInv.conserved_iff {sb : Superblock N} (h : BlockInv sb) :
    Conserved sb ↔ inactiveBlock ∉ sb.free.entries := by
  constructor
  · intro hc hm
    apply inactive_notMem_allBlocks (N := N)
    rw [← hc]
    exact Multiset.mem_add.mpr (Or.inl hm)
  · intro hm
    have hf : sb.free.entries.filter (· ≠ inactiveBlock) = sb.free.entries :=
      Multiset.filter_eq_self.mpr fun b hb he => hm (he ▸ hb)
    have hl := h.live
    rwa [hf] at hl

/-! ### The loop of `__myfs_unlink` -/

/-- A block table whose first `n` entries were released. -/
def clearTable (t : ℕ → ℤ) (n : ℕ) : ℕ → ℤ := fun j => if j < n then inactiveBlock else t j

@[simp] theorem clearTable_zero (t : ℕ → ℤ) : clearTable t 0 = t := by
  funext j
  simp [clearTable]

theorem clearTable_succ (t : ℕ → ℤ) (n : ℕ) :
    clearTable t (n + 1) = Function.update (clearTable t n) n inactiveBlock := by
  funext j
  by_cases hj : j = n
  · simp [clearTable, hj]
  · rw [Function.update_of_ne hj]
    have : j < n + 1 ↔ j < n := by omega
    simp [clearTable, this]

theorem releaseBlocks_file_self (sb : Superblock N) (fd n : ℕ) :
    (releaseBlocks sb fd n).file fd =
      { sb.file fd with block := clearTable (sb.file fd).block n } := by
  induction n with
  | zero => rfl
  | succ n ih => simp [releaseBlocks, releaseBlock, ih, clearTable_succ]

theorem releaseBlocks_file_of_ne (sb : Superblock N) {fd i : ℕ} (h : i ≠ fd) (n : ℕ) :
    (releaseBlocks sb fd n).file i = sb.file i := by
  induction n with
  | zero => rfl
  | succ n ih =>
    rw [releaseBlocks, releaseBlock, Superblock.setFile_of_ne _ _ h]
    exact ih

theorem releaseBlocks_succ_free (sb : Superblock N) (fd n : ℕ) :
    (releaseBlocks sb fd (n + 1)).free =
      (releaseBlocks sb fd n).free.push ((sb.file fd).block n) := by
  simp [releaseBlocks, releaseBlock, releaseBlocks_file_self, clearTable]

/-- While the ring has room, every iteration stores one entry in it. -/
theorem releaseBlocks_free (sb : Superblock N) (fd : ℕ) :
    ∀ n, sb.free.size + n < N →
      (releaseBlocks sb fd n).free.size = sb.free.size + n ∧
      (releaseBlocks sb fd n).free.entries = sb.free.entries + heldBlocks (sb.file fd) n
  | 0, _ => by simp [releaseBlocks, heldBlocks]
  | n + 1, h => by
    obtain ⟨hs, he⟩ := releaseBlocks_free sb fd n (by omega)
    rw [releaseBlocks_succ_free, Cyclic.size_push _ _ (by omega), Cyclic.entries_push _ _ (by omega),
      hs, he]
    refine ⟨by omega, ?_⟩
    simp [heldBlocks, Multiset.range_succ]

theorem fileBlocks_clear (f : File) (name : CString) (m : ℕ) :
    ∀ n, n ≤ maxBlocksPerFile →
      fileBlocks ⟨name, clearTable f.block n, m⟩ + tableSum live n f.block = fileBlocks f
  | 0, _ => by simp [fileBlocks, tableSum]
  | n + 1, h => by
    have ih := fileBlocks_clear f name m n (by omega)
    have hu := fileBlocks_update (f := ⟨name, clearTable f.block n, m⟩) (j := n) (by omega)
      inactiveBlock m
    simp only [live_inactive, add_zero, ← clearTable_succ] at hu
    have hsplit : tableSum live (n + 1) f.block = tableSum live n f.block + live (f.block n) :=
      Finset.sum_range_succ _ n
    have hn : clearTable f.block n n = f.block n := by simp [clearTable]
    rw [hn] at hu
    rw [hsplit, ← ih, ← hu]
    simp only [add_assoc, add_comm (live (f.block n))]

/-! ### Releasing a slot -/

/-- A slot after `__myfs_unlink`. -/
def clearFile (f : File) : File := ⟨CString.empty, clearTable f.block f.nBlock, 0⟩

@[simp] theorem clearFile_nBlock (f : File) : (clearFile f).nBlock = 0 := rfl

@[simp] theorem clearFile_name (f : File) : (clearFile f).name = CString.empty := rfl

theorem fileBlocks_clearFile {f : File} (h : f.nBlock ≤ maxBlocksPerFile) :
    fileBlocks (clearFile f) + tableSum live f.nBlock f.block = fileBlocks f :=
  fileBlocks_clear f CString.empty 0 f.nBlock h

theorem unlink_file_self (s : Fs N) (fd : ℕ) :
    (_myfsUnlink s fd).sb.file fd = clearFile (s.sb.file fd) := by
  simp [_myfsUnlink, releaseBlocks_file_self, clearFile]

theorem unlink_file_of_ne (s : Fs N) {fd i : ℕ} (h : i ≠ fd) :
    (_myfsUnlink s fd).sb.file i = s.sb.file i := by
  simp [_myfsUnlink, Superblock.setFile_of_ne _ _ h, releaseBlocks_file_of_ne _ h]

theorem unlink_free (s : Fs N) (fd : ℕ) :
    (_myfsUnlink s fd).sb.free = (releaseBlocks s.sb fd (s.sb.file fd).nBlock).free := rfl

theorem unlink_states_self (s : Fs N) (fd : ℕ) :
    (_myfsUnlink s fd).states fd = ⟨⟨false, false⟩, 0⟩ := by simp [_myfsUnlink]

theorem unlink_states_of_ne (s : Fs N) {fd i : ℕ} (h : i ≠ fd) :
    (_myfsUnlink s fd).states i = s.states i := by
  simp [_myfsUnlink, Fs.setState_of_ne _ _ h]

/-- `__myfs_unlink` as one replaced slot. -/
theorem unlink_file (s : Fs N) (fd : ℕ) :
    (_myfsUnlink s fd).sb.file = Function.update s.sb.file fd (clearFile (s.sb.file fd)) := by
  funext i
  by_cases h : i = fd
  · subst h; rw [unlink_file_self, Function.update_self]
  · rw [unlink_file_of_ne s h, Function.update_of_ne h]

theorem unlink_entries {s : Fs N} (h : BlockInv s.sb) {fd : ℕ} (hfd : fd < maxFiles) :
    (_myfsUnlink s fd).sb.free.size = s.sb.free.size + (s.sb.file fd).nBlock ∧
    (_myfsUnlink s fd).sb.free.entries =
      s.sb.free.entries + heldBlocks (s.sb.file fd) (s.sb.file fd).nBlock := by
  rw [unlink_free]
  refine releaseBlocks_free s.sb fd _ ?_
  have := h.fits
  have := nBlock_le_counted s.sb hfd
  omega

theorem BlockInv.unlink {s : Fs N} (h : BlockInv s.sb) {fd : ℕ} (hfd : fd < maxFiles) :
    BlockInv (_myfsUnlink s fd).sb := by
  obtain ⟨hsize, hentries⟩ := unlink_entries h hfd
  have hclear := fileBlocks_clearFile (h.nBlock_le_max hfd)
  have hmapped := mappedBlocks_update hfd (unlink_file s fd)
  have hcounted := countedBlocks_update hfd (unlink_file s fd)
  rw [clearFile_nBlock, add_zero] at hcounted
  refine ⟨?_, ?_, ?_⟩
  · rw [hentries, Multiset.filter_add, filter_heldBlocks, ← h.live]
    rw [← hclear, ← add_assoc] at hmapped
    have hm : mappedBlocks (_myfsUnlink s fd).sb +
        tableSum Myfs.live (s.sb.file fd).nBlock (s.sb.file fd).block = mappedBlocks s.sb := by
      apply add_right_cancel (b := fileBlocks (clearFile (s.sb.file fd)))
      rw [← hmapped, add_right_comm]
    rw [← hm, add_assoc, add_comm (tableSum _ _ _)]
  · have := h.fits
    omega
  · intro i hi
    rw [unlink_file]
    by_cases he : i = fd
    · subst he
      rw [Function.update_self, clearFile_nBlock]
      exact Nat.zero_le _
    · rw [Function.update_of_ne he]
      exact h.nBlock_le i hi

end Pthabt.Myfs
