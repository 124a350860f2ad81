import Pthabt.Hook.Transfer
import Pthabt.Myfs.Directory
import Pthabt.Nvme.OneCore

/-! Where the bytes of files are on the drives, and which bytes the requests of `read_impl` and
`write_impl` move. -/

namespace Pthabt.Hook

open Lib Myfs Nvme

variable {N : ℕ}

/-- The drive of a byte of a file, and the byte's address there. -/
def byteAddr (nd : ℕ) (sb : Superblock N) (i x : ℕ) : ℕ × ℕ :=
  (reqDid nd (lbaOf ((sb.file i).block (x / blockSize)) x),
    reqCdw10 nd (lbaOf ((sb.file i).block (x / blockSize)) x) * 512 + x % 512)

/-- The byte that a drive holds for a byte of a file. -/
def byteOn (disk : ℕ → ℕ → Byte) (a : ℕ × ℕ) : Byte := disk a.1 a.2

/-- A request of `read_impl` or `write_impl` for the bytes at `buf + j`. -/
def ioRequest (write : Bool) (lba step len j buf : ℕ) : Request :=
  ⟨write, lba, numBlk step, reqLen step len j, buf + j⟩

theorem inRange_of_inv {sb : Superblock numBlocks} (h : BlockInv sb) : InRange sb := by
  intro i hi j hj hne
  have hle : mappedBlocks sb ≤ allBlocks numBlocks := by
    rw [← h.live]
    exact Multiset.le_add_left _ _
  have hmem := Multiset.mem_of_le ((fileBlocks_le_mapped sb hi).trans hle) (mem_fileBlocks hj hne)
  obtain ⟨h0, h1⟩ := mem_allBlocks.mp hmem
  exact ⟨h0, by omega⟩

theorem mappedOnce_of_inv {sb : Superblock N} (h : BlockInv sb) : MappedOnce sb :=
  fun _ hi _ hk _ hj _ hl hne heq => h.mapped_inj hi hk hj hl hne heq

section Directory

variable {names : CString → Prop} {sb : Superblock N} {opened : ℕ → Option CString}

/-- The bytes of a file are mapped. -/
theorem mapped_of_directory (h : Directory names sb opened) {i x : ℕ} (hi : i < maxFiles)
    (hx : x < (sb.file i).nBlock * blockSize) : Mapped sb i x := by
  have hbs : 0 < blockSize := by simp [blockSize]
  have hlt : x / blockSize < (sb.file i).nBlock := (Nat.div_lt_iff_lt_mul hbs).mpr hx
  have hle := h.nBlock_le hi
  refine ⟨hi, lt_of_lt_of_le hx (Nat.mul_le_mul_right _ hle), ?_⟩
  exact (h.dense i hi _ (lt_of_lt_of_le hlt hle)).mpr hlt

end Directory

/-- Distinct bytes of files lie apart. -/
theorem byteAddr_inj {nd : ℕ} {sb : Superblock N} (hr : InRange sb) (hd : MappedOnce sb) {i k x y : ℕ}
    (hx : Mapped sb i x) (hy : Mapped sb k y) (h : byteAddr nd sb i x = byteAddr nd sb k y) :
    i = k ∧ x = y := by
  obtain ⟨hdid, haddr⟩ := Prod.mk.inj h
  have hcdw : reqCdw10 nd (lbaOf ((sb.file i).block (x / blockSize)) x) =
      reqCdw10 nd (lbaOf ((sb.file k).block (y / blockSize)) y) := by omega
  have hmod : x % 512 = y % 512 := by omega
  have himage := image_inj (lba_lt hr hx) (lba_lt hr hy) (Prod.ext hdid hcdw)
  obtain ⟨hik, hdiv⟩ := (lba_eq_iff hr hd hx hy).mp himage
  exact ⟨hik, by omega⟩

/-- The block of a byte of a file is one of the drives' blocks. -/
def InBlock (sb : Superblock N) (i x : ℕ) : Prop :=
  0 ≤ (sb.file i).block (x / blockSize) ∧ (sb.file i).block (x / blockSize) < numBlocks

theorem InRange.inBlock {sb : Superblock N} (hr : InRange sb) {i x : ℕ} (hm : Mapped sb i x) :
    InBlock sb i x := by
  obtain ⟨hi, hoff, hne⟩ := hm
  obtain ⟨he, hb⟩ := iBlock_of_lt hoff
  exact hr i hi _ (he ▸ hb) hne

/-- The bytes of a chunk are consecutive on its drive. -/
theorem byteAddr_add (nd : ℕ) {sb : Superblock N} {i q k : ℕ} (hb : InBlock sb i q)
    (hq : q % 512 = 0) (hk : q / 512 % raidFactor * 512 + k < blksz) :
    byteAddr nd sb i (q + k) = (reqDid nd (lbaOf ((sb.file i).block (q / blockSize)) q),
      reqCdw10 nd (lbaOf ((sb.file i).block (q / blockSize)) q) * 512 + k) := by
  obtain ⟨h0, hlt⟩ := hb
  rw [raidFactor_eq, blksz] at hk
  have hbs : blockSize = 2097152 := by simp [blockSize]
  have hdiv : (q + k) / blockSize = q / blockSize := by
    rw [hbs]
    omega
  obtain ⟨hlba, hlba_lt⟩ := lbaOf_of_range h0 hlt q
  have hlba' : lbaOf ((sb.file i).block (q / blockSize)) (q + k) =
      lbaOf ((sb.file i).block (q / blockSize)) q + k / 512 := by
    rw [(lbaOf_of_range h0 hlt (q + k)).1, hlba, hbs]
    omega
  have hadd : image nd (lbaOf ((sb.file i).block (q / blockSize)) q + k / 512) =
      (reqDid nd (lbaOf ((sb.file i).block (q / blockSize)) q),
        reqCdw10 nd (lbaOf ((sb.file i).block (q / blockSize)) q) + k / 512) :=
    image_add (by omega) (by rw [hlba, hbs, raidFactor_eq]; omega)
  obtain ⟨hdid, hcdw⟩ := Prod.mk.inj hadd
  have hmod : (q + k) % 512 = k % 512 := by omega
  rw [byteAddr, hdiv, hlba', hdid, hcdw, hmod, Nat.add_mul, Nat.add_assoc]
  congr 2
  omega

/-- A new block leaves the bytes of files where they are. -/
theorem byteAddr_mapBlock {nd : ℕ} {sb : Superblock N} {i b k y : ℕ} (hy : Mapped sb k y) :
    byteAddr nd (mapBlock sb i b) k y = byteAddr nd sb k y := by
  have hblock : ((mapBlock sb i b).file k).block (y / blockSize) = (sb.file k).block (y / blockSize) := by
    by_cases hkb : k = i ∧ y / blockSize = b
    · obtain ⟨rfl, rfl⟩ := hkb
      rw [mapBlock_of_mapped hy.2.2]
    · exact mapBlock_block_of_ne sb hkb
  rw [byteAddr, byteAddr, hblock]

theorem numBlk_pos {step : ℕ} (h : 0 < step) : 1 ≤ numBlk step := by
  unfold numBlk
  omega

theorem step_le_numBlk (step : ℕ) : step ≤ numBlk step * 512 := by
  unfold numBlk
  omega

theorem reqLen_le (step len j : ℕ) : reqLen step len j ≤ step := by
  unfold reqLen
  split_ifs <;> omega

theorem reqLen_le_sub (step len j : ℕ) : reqLen step len j ≤ len - j := by
  unfold reqLen
  split_ifs <;> omega

/-- A request that stays in its chunk. -/
theorem ioRequest_whole {write : Bool} {lba step len j buf : ℕ} (hstep : 0 < step)
    (hsize : numBlk step * 512 ≤ blksz) : (ioRequest write lba step len j buf).Whole where
  pos := numBlk_pos hstep
  le := hsize
  len_le := (reqLen_le step len j).trans (step_le_numBlk step)

theorem ioRequest_fits {write : Bool} {lba step len j buf : ℕ}
    (hsize : numBlk step * 512 ≤ blksz) (hbuf : buf ≠ 0) :
    (ioRequest write lba step len j buf).Fits :=
  ⟨(reqLen_le step len j).trans ((step_le_numBlk step).trans hsize), fun _ => by
    change buf + j ≠ 0
    omega⟩

/-- What a read of a file is to bring into memory. -/
def wantedAt (disk : ℕ → ℕ → Byte) (nd : ℕ) (sb : Superblock N) (i pos buf : ℕ) : ℕ → Byte :=
  fun a => byteOn disk (byteAddr nd sb i (pos + (a - buf)))

/-- The bytes of the drives that belong to the first `n` bytes at `pos` of a file. -/
def rangeAt (nd : ℕ) (sb : Superblock N) (i pos n : ℕ) (did a : ℕ) : Prop :=
  ∃ k < n, byteAddr nd sb i (pos + k) = (did, a)

section Request

variable {c : Nvme.Config} {core : ℕ} {sb : Superblock N} {i pos j step len buf : ℕ}

/-- The bytes of a chunk lie one after the other on one drive. -/
theorem byteAddr_chunk (nd : ℕ) (hb : InBlock sb i (pos + j)) (hpos : (pos + j) % 512 = 0)
    (hchunk : (pos + j) / 512 % raidFactor + numBlk step ≤ raidFactor) {lba did k : ℕ}
    (hlba : lba = lbaOf ((sb.file i).block ((pos + j) / blockSize)) (pos + j))
    (hdid : did = reqDid nd lba) (hk : k < numBlk step * 512) :
    byteAddr nd sb i (pos + (j + k)) = (did, reqCdw10 nd lba * 512 + k) := by
  have hadd := byteAddr_add nd hb hpos (k := k) (by
    rw [raidFactor_eq] at hchunk ⊢
    rw [blksz]
    omega)
  rwa [← hlba, ← hdid, Nat.add_assoc] at hadd

/-- Bytes that follow a range are elsewhere. -/
theorem not_rangeAt_of_chunk {nd n did start x : ℕ} {sb' : Superblock N} (hr : InRange sb')
    (hd : MappedOnce sb') (hold : ∀ k < n, byteAddr nd sb' i (pos + k) = byteAddr nd sb i (pos + k))
    (hkeep : ∀ k < n, Mapped sb' i (pos + k)) (hnew : ∀ k < step, Mapped sb' i (pos + (n + k)))
    (hbytes : ∀ k < step, byteAddr nd sb' i (pos + (n + k)) = (did, start + k))
    (hle : start ≤ x) (hlt : x < start + step) : ¬ rangeAt nd sb i pos n did x := by
  rintro ⟨k, hk, hx⟩
  obtain ⟨l, rfl⟩ := Nat.exists_eq_add_of_le hle
  have hl : l < step := Nat.lt_of_add_lt_add_left hlt
  have hsame := (hold k hk).trans (hx.trans (hbytes l hl).symm)
  have heq := (byteAddr_inj hr hd (hkeep k hk) (hnew l hl) hsame).2
  omega

/-- The requests of a read are for what it is to bring. -/
theorem readJob_of_chunk (hb : InBlock sb i (pos + j)) (hpos : (pos + j) % 512 = 0)
    (hstep : 0 < step) (hchunk : (pos + j) / 512 % raidFactor + numBlk step ≤ raidFactor ∧
      numBlk step * 512 ≤ blksz) (disk : ℕ → ℕ → Byte) {lba did : ℕ}
    (hlba : lba = lbaOf ((sb.file i).block ((pos + j) / blockSize)) (pos + j))
    (hdid : did = reqDid c.nd lba) :
    ReadJob (c.qp did core) (wantedAt disk c.nd sb i pos buf) (disk did)
      (ioRequest false lba step len j buf) where
  read := rfl
  whole := ioRequest_whole hstep hchunk.2
  wanted k hk := by
    have hk' : k < numBlk step * 512 :=
      lt_of_lt_of_le hk ((reqLen_le step len j).trans (step_le_numBlk step))
    have hadd := byteAddr_chunk c.nd hb hpos hchunk.1 hlba hdid hk'
    have harg : pos + (buf + j + k - buf) = pos + (j + k) := by omega
    change disk did _ = wantedAt disk c.nd sb i pos buf (buf + j + k)
    rw [wantedAt, harg, hadd]
    rfl

/-- The requests of a write are for the bytes of the file. -/
theorem writeJob_of_chunk (core buf : ℕ) (hb : InBlock sb i (pos + j))
    (hpos : (pos + j) % 512 = 0) (hstep : 0 < step) (hwhole : numBlk step * 512 = step)
    (hlen : j + step ≤ len)
    (hchunk : (pos + j) / 512 % raidFactor + numBlk step ≤ raidFactor ∧ numBlk step * 512 ≤ blksz)
    {lba did : ℕ} (hlba : lba = lbaOf ((sb.file i).block ((pos + j) / blockSize)) (pos + j))
    (hdid : did = reqDid c.nd lba) :
    (∀ k < step, byteAddr c.nd sb i (pos + (j + k)) = (did, reqCdw10 c.nd lba * 512 + k)) ∧
    WriteJob (c.qp did core) (rangeAt c.nd sb i pos (j + step) did)
      (ioRequest true lba step len j buf) := by
  obtain ⟨hc, hsize⟩ := hchunk
  have hadd : ∀ k < step, byteAddr c.nd sb i (pos + (j + k)) = (did, reqCdw10 c.nd lba * 512 + k) :=
    fun k hk => byteAddr_chunk c.nd hb hpos hc hlba hdid (hwhole.symm ▸ hk)
  refine ⟨hadd, rfl, ioRequest_whole hstep hsize, ?_, ?_⟩
  · change reqLen step len j = numBlk step * 512
    rw [hwhole, reqLen]
    split_ifs <;> omega
  · rintro a ⟨hle, hlt⟩
    obtain ⟨k, rfl⟩ := Nat.exists_eq_add_of_le hle
    have hk : k < step := by
      change _ < _ + numBlk step * 512 at hlt
      rw [hwhole] at hlt
      omega
    exact ⟨j + k, by omega, hadd k hk⟩

end Request

end Pthabt.Hook
