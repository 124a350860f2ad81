import Pthabt.Myfs.Operations
import Pthabt.Myfs.Paths

/-! Which block entry `myfs_get_lba` (`myfs.c`) touches. The quotient of the offset is narrowed to an
`int` and not compared with the length of the table: behind the table come `n_block` and the next
slot, and before it the name and the slot before. What the memory holds there is given. -/

namespace Pthabt.Myfs

open Lib

variable {N : ℕ}

/-- `int i_block = offset / MYFS_BLOCK_SIZE`. -/
def blockIndex (offset : ℕ) : ℤ := Int.bmod (offset / blockSize : ℕ) (2 ^ 32)

/-- The offset of `file[i].block[idx]`. -/
def entryAddr (N : ℕ) (i : ℤ) (idx : ℤ) : ℤ := blockAddr N i + 4 * idx

/-- How `myfs_get_lba` ends: it returns an address; its assertion fails; it stores a block in memory
outside the table; or the memory is not mapped. -/
inductive GetLbaEnd (N : ℕ) where
  | returned (sb : Superblock N) (lba : ℕ)
  | refused (sb : Superblock N)
  | stray (addr : ℤ)
  | fault

/-- `myfs_get_lba` with what is at the index outside the table. -/
def getLbaEnd (beyond : ℤ → Option ℤ) (sb : Superblock N) (i offset : ℕ) (write : Bool) :
    GetLbaEnd N :=
  match myfsGetLba sb i offset write with
  | some (sb', some lba) => .returned sb' lba
  | some (sb', none) => .refused sb'
  | none =>
    match beyond (blockIndex offset) with
    | some v =>
      if v ≠ inactiveBlock then .returned sb (lbaOf v offset)
      else if write then .stray (entryAddr N i (blockIndex offset))
      else .refused sb
    | none => .fault

/-- What is at the index: an entry of the table, or the memory around it. -/
def entryAt (beyond : ℤ → Option ℤ) (sb : Superblock N) (i : ℕ) (idx : ℤ) : Option ℤ :=
  if 0 ≤ idx ∧ idx < maxBlocksPerFile then some ((sb.file i).block idx.toNat) else beyond idx

/-- Only the entry `b` and `n_block` of slot `i`, and `free_blocks_rp`, may differ. -/
structure OnlyEntry (sb sb' : Superblock N) (i b : ℕ) : Prop where
  magic : sb'.magic = sb.magic
  cell : sb'.free.cell = sb.free.cell
  wp : sb'.free.wp = sb.free.wp
  others : ∀ k, k ≠ i → sb'.file k = sb.file k
  name : (sb'.file i).name = (sb.file i).name
  block : ∀ j, j ≠ b → (sb'.file i).block j = (sb.file i).block j

/-- The call refuses and changes nothing, or it touches the entry of its offset, which is in the
table, and changes no more than an allocation for it does. -/
def Framed (beyond : ℤ → Option ℤ) (sb : Superblock N) (i offset : ℕ) (write : Bool) : Prop :=
  getLbaEnd beyond sb i offset write = .refused sb ∨
    (blockIndex offset = (offset / blockSize : ℕ) ∧ blockIndex offset < maxBlocksPerFile ∧
      ∃ sb', (getLbaEnd beyond sb i offset write = .refused sb' ∨
        ∃ lba, getLbaEnd beyond sb i offset write = .returned sb' lba) ∧
        OnlyEntry sb sb' i (offset / blockSize))

section Index

variable {offset : ℕ}

theorem maxBlocks_eq : maxBlocksPerFile = 131072 := by simp [maxBlocksPerFile]

/-- The `int` that 32 bits make. -/
theorem bmod_eq (q : ℕ) : Int.bmod (q : ℤ) (2 ^ 32) =
    if q % 2 ^ 32 < 2147483648 then ((q % 2 ^ 32 : ℕ) : ℤ)
    else ((q % 2 ^ 32 : ℕ) : ℤ) - 4294967296 := by
  rw [Int.bmod_def]
  push_cast
  split_ifs <;> omega

theorem blockIndex_eq (offset : ℕ) : blockIndex offset =
    if iBlock offset < 2147483648 then (iBlock offset : ℤ) else (iBlock offset : ℤ) - 4294967296 :=
  bmod_eq (offset / blockSize)

/-- The index is in the table when its 32 bits are. -/
theorem blockIndex_in_iff (offset : ℕ) :
    0 ≤ blockIndex offset ∧ blockIndex offset < maxBlocksPerFile ↔
      iBlock offset < maxBlocksPerFile := by
  have hmax := maxBlocks_eq
  have hlt : iBlock offset < 4294967296 := Nat.mod_lt _ (by decide)
  rw [blockIndex_eq]
  split_ifs <;> omega

theorem blockIndex_of_in (h : iBlock offset < maxBlocksPerFile) :
    blockIndex offset = iBlock offset := by
  have hmax := maxBlocks_eq
  rw [blockIndex_eq, if_pos (by omega)]

theorem entryAt_of_in (beyond : ℤ → Option ℤ) (sb : Superblock N) (i : ℕ)
    (h : iBlock offset < maxBlocksPerFile) :
    entryAt beyond sb i (blockIndex offset) = some ((sb.file i).block (iBlock offset)) := by
  rw [entryAt, if_pos ((blockIndex_in_iff offset).mpr h), blockIndex_of_in h, Int.toNat_natCast]

theorem entryAt_of_out (beyond : ℤ → Option ℤ) (sb : Superblock N) (i : ℕ)
    (h : ¬ iBlock offset < maxBlocksPerFile) :
    entryAt beyond sb i (blockIndex offset) = beyond (blockIndex offset) := by
  rw [entryAt, if_neg fun hin => h ((blockIndex_in_iff offset).mp hin)]

theorem iBlock_of_quotient_lt (h : offset / blockSize < maxBlocksPerFile) :
    iBlock offset = offset / blockSize := by
  have hmax := maxBlocks_eq
  exact Nat.mod_eq_of_lt (Nat.lt_of_lt_of_le h (by rw [hmax]; decide))

end Index

section Frame

variable {beyond : ℤ → Option ℤ} {sb sb' : Superblock N} {i offset b : ℕ} {write : Bool}

theorem onlyEntry_refl (sb : Superblock N) (i b : ℕ) : OnlyEntry sb sb i b where
  magic := rfl
  cell := rfl
  wp := rfl
  others := fun _ _ => rfl
  name := rfl
  block := fun _ _ => rfl

/-- An allocation changes no more. -/
theorem onlyEntry_mapBlock (sb : Superblock N) (i b : ℕ) : OnlyEntry sb (mapBlock sb i b) i b := by
  by_cases hm : (sb.file i).block b = inactiveBlock
  · exact {
      magic := by simp [mapBlock, hm, Superblock.setFile]
      cell := by
        rw [mapBlock_free hm]
        rfl
      wp := by
        rw [mapBlock_free hm]
        rfl
      others := fun k hk => mapBlock_file_of_ne sb hk
      name := mapBlock_name sb i b i
      block := fun j hj => mapBlock_block_of_ne sb fun h => hj h.2 }
  · rw [mapBlock_of_mapped hm]
    exact onlyEntry_refl sb i b

/-- An allocation that changes nothing found the entry mapped. -/
theorem mapped_of_mapBlock_eq (h : mapBlock sb i b = sb) : (sb.file i).block b ≠ inactiveBlock := by
  intro hm
  have hn := mapBlock_nBlock hm
  rw [h] at hn
  omega

/-- A call inside the table, for reading or writing. -/
theorem getLbaEnd_of_in (beyond : ℤ → Option ℤ) (sb : Superblock N) (i : ℕ) (write : Bool)
    (h : iBlock offset < maxBlocksPerFile) : ∃ sb',
    sb' = (if write then mapBlock sb i (iBlock offset) else sb) ∧
      if (sb'.file i).block (iBlock offset) = inactiveBlock then
        getLbaEnd beyond sb i offset write = .refused sb'
      else ∃ lba, getLbaEnd beyond sb i offset write = .returned sb' lba := by
  refine ⟨_, rfl, ?_⟩
  unfold getLbaEnd myfsGetLba
  rw [if_pos h]
  split_ifs <;> simp_all

/-- A call outside the table goes by what the memory holds there. -/
theorem getLbaEnd_of_out (h : ¬ iBlock offset < maxBlocksPerFile) {v : ℤ}
    (hv : beyond (blockIndex offset) = some v) (sb : Superblock N) (i : ℕ) (write : Bool) : getLbaEnd beyond sb i offset write =
      if v ≠ inactiveBlock then .returned sb (lbaOf v offset)
      else if write then .stray (entryAddr N i (blockIndex offset)) else .refused sb := by
  have hnone : myfsGetLba sb i offset write = none := by rw [myfsGetLba, if_neg h]
  simp only [getLbaEnd, hnone, hv]

theorem getLbaEnd_of_unmapped (h : ¬ iBlock offset < maxBlocksPerFile)
    (hv : beyond (blockIndex offset) = none) : getLbaEnd beyond sb i offset write = .fault := by
  have hnone : myfsGetLba sb i offset write = none := by rw [myfsGetLba, if_neg h]
  simp only [getLbaEnd, hnone, hv]

/-- A call whose 32-bit index is in the table. -/
theorem framed_in_iff (hin : iBlock offset < maxBlocksPerFile) :
    Framed beyond sb i offset write ↔ offset / blockSize < maxBlocksPerFile ∨
      (write = false ∧ (sb.file i).block (iBlock offset) = inactiveBlock) := by
  obtain ⟨sb', hsb', hend⟩ := getLbaEnd_of_in beyond sb i write hin
  constructor
  · rintro (hrefused | ⟨hidx, hlt, -⟩)
    · right
      split_ifs at hend with hentry
      · obtain rfl : sb' = sb := GetLbaEnd.refused.inj (hend.symm.trans hrefused)
        cases write with
        | false => exact ⟨rfl, hentry⟩
        | true => exact absurd hentry (mapped_of_mapBlock_eq hsb'.symm)
      · obtain ⟨lba, hlba⟩ := hend
        rw [hrefused] at hlba
        cases hlba
    · left
      omega
  · rintro (hquot | ⟨rfl, hentry⟩)
    · right
      have hidx := blockIndex_of_in hin
      rw [iBlock_of_quotient_lt hquot] at hidx hsb'
      refine ⟨hidx, by omega, sb', ?_, ?_⟩
      · split_ifs at hend with hentry
        · exact Or.inl hend
        · exact Or.inr hend
      · rw [hsb']
        split_ifs
        · exact onlyEntry_mapBlock sb i _
        · exact onlyEntry_refl sb i _
    · left
      have hsame : sb' = sb := hsb'
      rw [hsame, if_pos hentry] at hend
      exact hend

/-- A call whose index is not. -/
theorem framed_out_iff (hin : ¬ iBlock offset < maxBlocksPerFile) :
    Framed beyond sb i offset write ↔ write = false ∧ beyond (blockIndex offset) = some inactiveBlock := by
  have hout := mt (blockIndex_in_iff offset).mp hin
  constructor
  · rintro (hrefused | ⟨hidx, hlt, -⟩)
    · cases hv : beyond (blockIndex offset) with
      | none =>
        rw [getLbaEnd_of_unmapped hin hv] at hrefused
        cases hrefused
      | some v =>
        rw [getLbaEnd_of_out hin hv] at hrefused
        split_ifs at hrefused with hne hwrite
        exact ⟨by simpa using hwrite, congrArg some (not_not.mp hne)⟩
    · have h0 : 0 ≤ blockIndex offset := hidx ▸ Int.natCast_nonneg _
      exact absurd ⟨h0, hlt⟩ hout
  · rintro ⟨rfl, hv⟩
    left
    rw [getLbaEnd_of_out hin hv, if_neg (not_not.mpr rfl), if_neg Bool.false_ne_true]

end Frame

/-- `myfs_get_lba` stays inside its frame if and only if the block of the offset is in the table, or
the call reads and finds no block where the narrowed index points. -/
theorem framed_iff (beyond : ℤ → Option ℤ) (sb : Superblock N) (i offset : ℕ) (write : Bool) :
    Framed beyond sb i offset write ↔ offset / blockSize < maxBlocksPerFile ∨
      (write = false ∧ entryAt beyond sb i (blockIndex offset) = some inactiveBlock) := by
  by_cases hin : iBlock offset < maxBlocksPerFile
  · rw [entryAt_of_in beyond sb i hin, Option.some.injEq]
    exact framed_in_iff hin
  · have hquot : ¬ offset / blockSize < maxBlocksPerFile := fun h => hin (iBlock_of_quotient_lt h ▸ h)
    rw [entryAt_of_out beyond sb i hin, or_iff_right hquot]
    exact framed_out_iff hin

section Examples

/-- The first offset behind the table has the index of `n_block`. -/
theorem blockIndex_behind : blockIndex (2 ^ 38) = 131072 := by
  rw [blockIndex_eq, iBlock]
  simp [blockSize]

/-- Memory around the table that is zero. -/
def zeroAround (_ : ℤ) : Option ℤ := some 0

theorem zeroAround_eq (idx : ℤ) : zeroAround idx = some 0 := rfl

/-- A write at the first offset behind the table takes `n_block` for an entry: it gets the blocks of
whichever file has that one; and at 2 ^ 53 the quotient wraps to the entry 0. -/
theorem behind_table_not_framed :
    ¬ Framed zeroAround (freshFs numBlocks one_lt_numBlocks).sb 0 (2 ^ 38) true ∧
    entryAddr numBlocks 0 (blockIndex (2 ^ 38)) = nBlockAddr numBlocks 0 ∧
    getLbaEnd zeroAround (freshFs numBlocks one_lt_numBlocks).sb 0 (2 ^ 38) true =
      .returned (freshFs numBlocks one_lt_numBlocks).sb 0 ∧
    ¬ Framed zeroAround (freshFs numBlocks one_lt_numBlocks).sb 0 (2 ^ 53) true := by
  have hbs : blockSize = 2097152 := by simp [blockSize]
  have hmax := maxBlocks_eq
  have hlow : ¬ iBlock (2 ^ 38) < maxBlocksPerFile := by
    rw [iBlock, hbs, hmax]
    decide
  have hlba : lbaOf 0 (2 ^ 38) = 0 := by
    rw [lbaOf, hbs]
    rfl
  have hend : getLbaEnd zeroAround (freshFs numBlocks one_lt_numBlocks).sb 0 (2 ^ 38) true =
      .returned (freshFs numBlocks one_lt_numBlocks).sb 0 := by
    rw [getLbaEnd_of_out hlow (zeroAround_eq _), hlba, if_pos (by decide)]
  refine ⟨fun h => ?_, ?_, hend, fun h => ?_⟩
  · rcases (framed_iff _ _ _ _ _).mp h with h | h
    · exact hlow (iBlock_of_quotient_lt h ▸ h)
    · exact absurd h.1 (by decide)
  · rw [blockIndex_behind, entryAddr, nBlockAddr, hmax]
    rfl
  · rcases (framed_iff _ _ _ _ _).mp h with h | h
    · rw [hbs, hmax] at h
      exact absurd h (by decide)
    · exact absurd h.1 (by decide)

end Examples

end Pthabt.Myfs
