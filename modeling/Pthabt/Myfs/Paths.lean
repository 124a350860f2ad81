import Pthabt.Myfs.Conservation

/-! What `myfs_open` and `myfs_unlink` make of a filename. Both compare only as many bytes as the
filename has, so a slot whose name extends it matches too: the first such slot is opened and
all of them are unlinked. A filename for which every slot is taken, or that is longer than
the name field, is stored outside a slot. -/

namespace Pthabt.Myfs

open Lib

variable {N : ℕ}

/-! ### Which slots -/

/-- `myfs_open` returns the slot with this name, or gives it to a slot without a name. -/
def ExactOpen (s : Fs N) (filename : CString) : Prop :=
  ∃ s' i, myfsOpen s filename = some (s', i) ∧ i < maxFiles ∧
    ((s.sb.file i).name ≠ CString.empty ∧ (s.sb.file i).name = filename ∨
      (s.sb.file i).name = CString.empty ∧ (s'.sb.file i).name = filename)

/-- `myfs_unlink` releases or marks the slot with this name, and no other. -/
structure ExactUnlink (s : Fs N) (filename : CString) : Prop where
  hit : ∀ i < maxFiles, (s.sb.file i).name = filename →
    ((myfsUnlink s filename).sb.file i).name = CString.empty ∨
      ((myfsUnlink s filename).states i).flags.unlinked = true
  others : ∀ i < maxFiles, (s.sb.file i).name ≠ filename →
    (myfsUnlink s filename).sb.file i = s.sb.file i ∧
      ((myfsUnlink s filename).states i).flags = (s.states i).flags

/-- The first slot that matches has this very name, or none matches and one has no name. -/
def OpensExactly (sb : Superblock N) (filename : CString) : Prop :=
  (∃ i, FirstMatch sb filename i ∧ (sb.file i).name = filename) ∨
    NoMatch sb filename ∧ ∃ i, FirstEmpty sb i

/-- A slot whose name extends the filename is in use and was unlinked before. -/
def UnlinksExactly (s : Fs N) (filename : CString) : Prop :=
  ∀ i < maxFiles, filename.IsPrefix (s.sb.file i).name → (s.sb.file i).name ≠ filename →
    (s.states i).refCount ≠ 0 ∧ (s.states i).flags.unlinked = true

/-- A slot that a filename matches has a name. -/
theorem name_ne_empty {sb : Superblock N} {filename : CString} (hne : filename ≠ CString.empty)
    {i : ℕ} (hm : nameMatches sb filename i) : (sb.file i).name ≠ CString.empty := by
  intro he
  rw [nameMatches_iff, he] at hm
  exact CString.not_isPrefix_empty hne hm

theorem exactOpen_iff (s : Fs N) {filename : CString} (hne : filename ≠ CString.empty)
    (hlen : filename.strlen < maxNamelen) :
    ExactOpen s filename ↔ OpensExactly s.sb filename := by
  constructor
  · rintro ⟨s', i, ho, -, hname⟩
    rcases myfsOpen_eq_some.mp ho with ⟨hm, -⟩ | ⟨hno, he, -, -⟩
    · left
      rcases hname with ⟨-, hname⟩ | ⟨hempty, -⟩
      · exact ⟨i, hm, hname⟩
      · exact absurd hempty (name_ne_empty hne hm.2.1)
    · exact Or.inr ⟨hno, i, he⟩
  · rintro (⟨i, hm, hname⟩ | ⟨hno, i, he⟩)
    · refine ⟨_, i, myfsOpen_eq_some.mpr (Or.inl ⟨hm, rfl⟩), hm.1, Or.inl ⟨?_, hname⟩⟩
      rw [hname]
      exact hne
    · refine ⟨_, i, myfsOpen_eq_some.mpr (Or.inr ⟨hno, he, hlen, rfl⟩), he.1, Or.inr ⟨he.2.1, ?_⟩⟩
      rw [openNew_file, Function.update_self]

theorem exactUnlink_iff (s : Fs N) {filename : CString} (hne : filename ≠ CString.empty) :
    ExactUnlink s filename ↔ UnlinksExactly s filename := by
  constructor
  · intro h i hi hp hname
    have hm := (nameMatches_iff s.sb filename i).mpr hp
    obtain ⟨hfile, hflags⟩ := h.others i hi hname
    rw [myfsUnlink_file s filename hi] at hfile
    rw [myfsUnlink_states s filename hi, if_pos hm] at hflags
    -- a released slot would lose its name
    have hr : (s.states i).refCount ≠ 0 := by
      intro hr
      rw [if_pos ⟨hm, hr⟩] at hfile
      exact name_ne_empty hne hm (by rw [← hfile, clearFile_name])
    rw [if_neg hr] at hflags
    exact ⟨hr, by rw [← hflags]⟩
  · intro h
    constructor
    · intro i hi hname
      have hm : nameMatches s.sb filename i := by
        rw [nameMatches_iff, hname]
        exact CString.isPrefix_refl _
      by_cases hr : (s.states i).refCount = 0
      · left
        rw [myfsUnlink_file s filename hi, if_pos ⟨hm, hr⟩, clearFile_name]
      · right
        rw [myfsUnlink_states s filename hi, if_pos hm, if_neg hr]
    · intro i hi hname
      rw [myfsUnlink_file s filename hi, myfsUnlink_states s filename hi]
      by_cases hm : nameMatches s.sb filename i
      · obtain ⟨hr, hu⟩ := h i hi ((nameMatches_iff s.sb filename i).mp hm) hname
        rw [if_neg (fun hc => hr hc.2), if_pos hm, if_neg hr]
        refine ⟨rfl, ?_⟩
        rw [← hu]
      · rw [if_neg (fun hc => hm hc.1), if_neg hm]
        exact ⟨rfl, rfl⟩

/-- Open and unlink resolve a filename to its own slot exactly when the names in the directory do
not make them prefer or include another. -/
theorem exact_paths_iff (s : Fs N) {filename : CString} (hne : filename ≠ CString.empty)
    (hlen : filename.strlen < maxNamelen) :
    ExactOpen s filename ∧ ExactUnlink s filename ↔
      OpensExactly s.sb filename ∧ UnlinksExactly s filename := by
  rw [exactOpen_iff s hne hlen, exactUnlink_iff s hne]

/-! ### Which bytes -/

/-- `offsetof(superblock_t, free_blocks_rp)`. -/
def freeRpAddr (N : ℕ) : ℤ := 8 + 4 * N

/-- `offsetof(superblock_t, file)`, a multiple of 8. -/
def fileAddr (N : ℕ) : ℤ := (8 + 4 * N + 4 + 4 + 7) / 8 * 8

/-- `sizeof(file_t)`. -/
def fileBytes : ℤ := maxNamelen + 4 * maxBlocksPerFile + 8

/-- The offset of `file[i].name`. -/
def nameAddr (N : ℕ) (i : ℤ) : ℤ := fileAddr N + i * fileBytes

/-- The offset of `file[i].block`. -/
def blockAddr (N : ℕ) (i : ℤ) : ℤ := nameAddr N i + maxNamelen

/-- The offset of `file[i].n_block`. -/
def nBlockAddr (N : ℕ) (i : ℤ) : ℤ := blockAddr N i + 4 * maxBlocksPerFile

/-- The offset of `myfs_file_states[i].flags` in its array. -/
def flagsAddr (i : ℤ) : ℤ := 4 * i

/-- A store of `myfs_open` for slot `i`: the `strncpy` of the filename with its terminator, or an
assignment. -/
inductive OpenStore where
  | name (i : ℤ) (filename : CString)
  | nBlock (i : ℤ)
  | flags (i : ℤ)

namespace OpenStore

def addr (N : ℕ) : OpenStore → ℤ
  | .name i _ => nameAddr N i
  | .nBlock i => nBlockAddr N i
  | .flags i => flagsAddr i

/-- The bytes stored, the values in little-endian order. -/
def bytes : OpenStore → List UInt8
  | .name _ filename => filename.bytes ++ [0]
  | .nBlock _ => [0, 0, 0, 0, 0, 0, 0, 0]
  | .flags _ => [1, 0]

/-- The first byte of the same field of slot `i`, and the number of its bytes. -/
def field (N i : ℕ) : OpenStore → ℤ × ℕ
  | .name _ _ => (nameAddr N i, maxNamelen)
  | .nBlock _ => (nBlockAddr N i, 8)
  | .flags _ => (flagsAddr i, 2)

/-- The store is to this field of slot `i`. -/
def InField (N i : ℕ) (st : OpenStore) : Prop :=
  (st.field N i).1 ≤ st.addr N ∧ st.addr N + st.bytes.length ≤ (st.field N i).1 + (st.field N i).2

/-- The slot after a store to one of its fields. -/
def apply (s : Fs N) : OpenStore → Fs N
  | .name i filename =>
    { s with sb := s.sb.setFile i.toNat { s.sb.file i.toNat with name := filename } }
  | .nBlock i => { s with sb := s.sb.setFile i.toNat { s.sb.file i.toNat with nBlock := 0 } }
  | .flags i => s.setState i.toNat { s.states i.toNat with flags := fileOpened }

end OpenStore

/-- What `myfs_open` returns and stores. `empty_i` is -1 when no slot is empty. -/
def myfsOpenStores (s : Fs N) (filename : CString) : ℤ × List OpenStore :=
  match openScan s.sb filename (List.range maxFiles) none with
  | .inl i => (i, [.flags i])
  | .inr e =>
    let emptyI : ℤ := match e with
      | some i => i
      | none => -1
    (emptyI, [.name emptyI filename, .nBlock emptyI, .flags emptyI])

/-- The slot returned has the filename and every store is to a field of it, or a negative result
comes without stores. -/
def StaysInside (s : Fs N) (filename : CString) : Prop :=
  (∃ i < maxFiles, (myfsOpenStores s filename).1 = i ∧
    (nameMatches s.sb filename i ∨ .name i filename ∈ (myfsOpenStores s filename).2) ∧
    ∀ st ∈ (myfsOpenStores s filename).2, st.InField N i) ∨
  (myfsOpenStores s filename).1 < 0 ∧ (myfsOpenStores s filename).2 = []

/-- The three ways the scan of `myfs_open` ends. -/
theorem openScan_cases (sb : Superblock N) (filename : CString) :
    (∃ i, FirstMatch sb filename i ∧
      openScan sb filename (List.range maxFiles) none = .inl i) ∨
    NoMatch sb filename ∧
      ((∃ i, FirstEmpty sb i ∧ openScan sb filename (List.range maxFiles) none = .inr (some i)) ∨
        (∀ i, ¬ FirstEmpty sb i) ∧
          openScan sb filename (List.range maxFiles) none = .inr none) := by
  rw [openScan_eq]
  cases hm : (List.range maxFiles).find? (fun i => nameMatches sb filename i) with
  | some i => exact Or.inl ⟨i, firstMatch_find.mp hm, rfl⟩
  | none =>
    refine Or.inr ⟨noMatch_find.mp hm, ?_⟩
    cases he : (List.range maxFiles).find? (fun i => (sb.file i).name = CString.empty) with
    | some i => exact Or.inl ⟨i, firstEmpty_find.mp he, rfl⟩
    | none =>
      refine Or.inr ⟨fun i hi => ?_, rfl⟩
      rw [firstEmpty_find.mpr hi] at he
      cases he

theorem stores_of_match {s : Fs N} {filename : CString} {i : ℕ}
    (h : openScan s.sb filename (List.range maxFiles) none = .inl i) :
    myfsOpenStores s filename = (↑i, [.flags i]) := by
  rw [myfsOpenStores, h]

theorem stores_of_empty {s : Fs N} {filename : CString} {i : ℕ}
    (h : openScan s.sb filename (List.range maxFiles) none = .inr (some i)) :
    myfsOpenStores s filename = (↑i, [.name i filename, .nBlock i, .flags i]) := by
  rw [myfsOpenStores, h]

theorem stores_of_full {s : Fs N} {filename : CString}
    (h : openScan s.sb filename (List.range maxFiles) none = .inr none) :
    myfsOpenStores s filename = (-1, [.name (-1) filename, .nBlock (-1), .flags (-1)]) := by
  rw [myfsOpenStores, h]

theorem OpenStore.flags_inField (N i : ℕ) : (OpenStore.flags i).InField N i := by
  simp [InField, field, addr, bytes]

theorem OpenStore.nBlock_inField (N i : ℕ) : (OpenStore.nBlock i).InField N i := by
  simp [InField, field, addr, bytes]

/-- The filename and its terminator fit the name field. -/
theorem OpenStore.name_inField (N i : ℕ) (filename : CString) :
    (OpenStore.name i filename).InField N i ↔ filename.strlen < maxNamelen := by
  simp only [InField, field, addr, bytes, List.length_append, List.length_singleton,
    CString.strlen, le_refl, true_and]
  omega

/-- `myfs_open` stays inside its tables exactly when the name is there or there is room for it. -/
theorem stays_inside_iff (s : Fs N) (filename : CString) :
    StaysInside s filename ↔ CanOpen s.sb filename := by
  rcases openScan_cases s.sb filename with ⟨i, hm, hscan⟩ | ⟨hno, ⟨i, he, hscan⟩ | ⟨hfull, hscan⟩⟩
  · rw [StaysInside, stores_of_match hscan]
    refine iff_of_true (Or.inl ⟨i, hm.1, rfl, Or.inl hm.2.1, ?_⟩) (Or.inl ⟨i, hm⟩)
    intro st hst
    obtain rfl := List.mem_singleton.mp hst
    exact OpenStore.flags_inField N i
  · rw [StaysInside, stores_of_empty hscan]
    constructor
    · rintro (⟨k, -, hk, -, hin⟩ | ⟨hneg, -⟩)
      · obtain rfl := Int.natCast_inj.mp hk
        have hname := hin (.name i filename) (by simp)
        exact Or.inr ⟨⟨i, he⟩, (OpenStore.name_inField N i filename).mp hname⟩
      · simp at hneg
        omega
    · rintro (⟨k, hk⟩ | ⟨-, hlen⟩)
      · exact absurd hno hk.not_noMatch
      · refine Or.inl ⟨i, he.1, rfl, Or.inr (by simp), ?_⟩
        intro st hst
        simp only [List.mem_cons, List.not_mem_nil, or_false] at hst
        rcases hst with rfl | rfl | rfl
        · exact (OpenStore.name_inField N i filename).mpr hlen
        · exact OpenStore.nBlock_inField N i
        · exact OpenStore.flags_inField N i
  · rw [StaysInside, stores_of_full hscan]
    refine iff_of_false ?_ ?_
    · rintro (⟨k, -, hk, -⟩ | ⟨-, hnil⟩)
      · dsimp only at hk
        omega
      · cases hnil
    · rintro (⟨k, hk⟩ | ⟨⟨k, hk⟩, -⟩)
      · exact hk.not_noMatch hno
      · exact hfull k hk

/-- Where the stores stay inside, they are what `myfs_open` does to the file system. -/
theorem myfsOpen_eq_stores {s s' : Fs N} {filename : CString} {i : ℕ}
    (h : myfsOpen s filename = some (s', i)) :
    StaysInside s filename ∧ (myfsOpenStores s filename).1 = i ∧
      (myfsOpenStores s filename).2.foldl OpenStore.apply s = s' := by
  refine ⟨(stays_inside_iff s filename).mpr (myfsOpen_isSome.mp ⟨s', i, h⟩), ?_⟩
  rcases openScan_cases s.sb filename with ⟨k, hm, hscan⟩ | ⟨-, ⟨k, he, hscan⟩ | ⟨-, hscan⟩⟩
  · rw [stores_of_match hscan]
    rw [myfsOpen, hscan] at h
    simp only [Option.some.injEq, Prod.mk.injEq] at h
    obtain ⟨rfl, rfl⟩ := h
    exact ⟨rfl, rfl⟩
  · rw [stores_of_empty hscan]
    rw [myfsOpen, hscan] at h
    dsimp only at h
    split_ifs at h
    simp only [Option.some.injEq, Prod.mk.injEq] at h
    obtain ⟨rfl, rfl⟩ := h
    refine ⟨rfl, ?_⟩
    simp [OpenStore.apply, Superblock.setFile, Fs.setState]
  · rw [myfsOpen, hscan] at h
    cases h

/-! ### A name that extends another, a full directory, a long name -/

section Examples

variable (N) (hN : 1 < N)

def nameAB : CString := ⟨[97, 98], by simp⟩

theorem fresh_noMatch {filename : CString} (hne : filename ≠ CString.empty) :
    NoMatch (freshFs N hN).sb filename := by
  intro k hk hm
  exact name_ne_empty hne hm (by rw [fresh_file N hN hk])

theorem fresh_firstEmpty : FirstEmpty (freshFs N hN).sb 0 :=
  ⟨maxFiles_pos, by rw [fresh_file N hN maxFiles_pos], by simp⟩

/-- A fresh file system with one open file, whose name is two bytes long. -/
def twoBytes : Fs N := openNew (freshFs N hN) nameAB 0

theorem twoBytes_open : myfsOpen (freshFs N hN) nameAB = some (twoBytes N hN, 0) :=
  myfsOpen_first (fun i hi => by rw [fresh_file N hN hi]) (by decide)
    (by simp [nameAB, CString.strlen, maxNamelen])

theorem twoBytes_file : (twoBytes N hN).sb.file 0 = ⟨nameAB, emptyTable, 0⟩ := by
  simp [twoBytes, openNew, fresh_file N hN maxFiles_pos]

theorem twoBytes_match : nameMatches (twoBytes N hN).sb nameA 0 := by
  rw [nameMatches_iff, twoBytes_file]
  decide

theorem twoBytes_refCount : ((twoBytes N hN).states 0).refCount = 0 := by
  rw [twoBytes, openNew, Fs.setState_self]
  rfl

/-- A directory without an empty slot: three bytes tell the names apart. -/
def crowdedFs : Fs N where
  sb :=
    { (freshFs N hN).sb with
      file := fun i =>
        ⟨⟨[98, UInt8.ofNat (1 + i / 64 % 64), UInt8.ofNat (1 + i % 64)], by
          intro b hb
          simp only [List.mem_cons, List.not_mem_nil, or_false] at hb
          rcases hb with rfl | rfl | rfl
          · decide
          · intro h
            have := congrArg UInt8.toNat h
            simp at this
            omega
          · intro h
            have := congrArg UInt8.toNat h
            simp at this
            omega⟩, emptyTable, 0⟩ }
  states := (freshFs N hN).states

/-- 1024 bytes and a terminator. -/
def longName : CString :=
  ⟨List.replicate 1024 97, fun b hb => by rw [List.eq_of_mem_replicate hb]; decide⟩

theorem longName_strlen : longName.strlen = 1024 := List.length_replicate

end Examples

/-- Where the names match no slot, the first empty one is taken and none is unlinked. -/
theorem exact_paths_fresh :
    ExactOpen (freshFs numBlocks one_lt_numBlocks) nameA ∧
      ExactUnlink (freshFs numBlocks one_lt_numBlocks) nameA := by
  refine (exact_paths_iff _ (by decide) nameA_short).mpr ⟨?_, ?_⟩
  · exact Or.inr ⟨fresh_noMatch _ _ (by decide), 0, fresh_firstEmpty _ _⟩
  · intro i hi hp
    exact absurd ((nameMatches_iff _ _ _).mpr hp) (fresh_noMatch _ _ (by decide) i hi)

/-- After `ab` was created, opening `a` returns it and unlinking `a` deletes it. -/
theorem prefix_not_exact :
    myfsOpen (myfsMount (zeroSuperblock numBlocks one_lt_numBlocks)) nameAB =
        some (twoBytes numBlocks one_lt_numBlocks, 0) ∧
      ¬ (ExactOpen (twoBytes numBlocks one_lt_numBlocks) nameA ∧
        ExactUnlink (twoBytes numBlocks one_lt_numBlocks) nameA) ∧
      myfsOpen (twoBytes numBlocks one_lt_numBlocks) nameA =
        some (openFound (twoBytes numBlocks one_lt_numBlocks) 0, 0) ∧
      ((twoBytes numBlocks one_lt_numBlocks).sb.file 0).name = nameAB ∧
      ((myfsUnlink (twoBytes numBlocks one_lt_numBlocks) nameA).sb.file 0).name = CString.empty := by
  have hm := twoBytes_match numBlocks one_lt_numBlocks
  have hr := twoBytes_refCount numBlocks one_lt_numBlocks
  have hname : ((twoBytes numBlocks one_lt_numBlocks).sb.file 0).name = nameAB := by
    rw [twoBytes_file]
  refine ⟨by rw [mount_zero]; exact twoBytes_open _ _, ?_, ?_, hname, ?_⟩
  · rintro ⟨-, hu⟩
    have h := (exactUnlink_iff _ (by decide)).mp hu 0 maxFiles_pos
      ((nameMatches_iff _ _ _).mp hm) (by rw [hname]; decide)
    exact h.1 hr
  · exact myfsOpen_eq_some.mpr (Or.inl ⟨⟨maxFiles_pos, hm, by simp⟩, rfl⟩)
  · rw [myfsUnlink_file _ _ maxFiles_pos, if_pos ⟨hm, hr⟩, clearFile_name]

theorem crowded_stores :
    myfsOpenStores (crowdedFs numBlocks one_lt_numBlocks) nameA =
      (-1, [.name (-1) nameA, .nBlock (-1), .flags (-1)]) := by
  have hno : NoMatch (crowdedFs numBlocks one_lt_numBlocks).sb nameA := by
    intro k _ hm
    rw [nameMatches_iff] at hm
    have hhead : [(97 : UInt8)] <+: [98, _, _] := hm
    simp at hhead
  rcases openScan_cases (crowdedFs numBlocks one_lt_numBlocks).sb nameA with
    ⟨i, hi, -⟩ | ⟨-, ⟨i, he, -⟩ | ⟨-, hscan⟩⟩
  · exact absurd hno hi.not_noMatch
  · have hbytes := congrArg CString.bytes he.2.1
    simp [crowdedFs, CString.empty] at hbytes
  · exact stores_of_full hscan

/-- With every slot taken, the slot before the first one gets the name, and its `n_block` is the
memory of both positions of the free ring. A name of 1024 bytes has its terminator in the
first entry of the block table. -/
theorem stores_outside :
    (¬ StaysInside (crowdedFs numBlocks one_lt_numBlocks) nameA ∧
      myfsOpenStores (crowdedFs numBlocks one_lt_numBlocks) nameA =
        (-1, [.name (-1) nameA, .nBlock (-1), .flags (-1)]) ∧
      (OpenStore.nBlock (-1)).addr numBlocks = freeRpAddr numBlocks ∧
      (OpenStore.nBlock (-1)).bytes = List.replicate 8 0 ∧ (OpenStore.flags (-1)).addr numBlocks < 0) ∧
    ¬ StaysInside (freshFs numBlocks one_lt_numBlocks) longName ∧
      (OpenStore.name 0 longName).addr numBlocks + 1024 = blockAddr numBlocks 0 ∧
      (OpenStore.name 0 longName).bytes[1024]? = some 0 := by
  have hfull := crowded_stores
  refine ⟨⟨?_, hfull, ?_, rfl, ?_⟩, ?_, ?_, ?_⟩
  · rw [StaysInside, hfull]
    rintro (⟨k, -, hk, -⟩ | ⟨-, hnil⟩)
    · dsimp only at hk
      omega
    · cases hnil
  · simp only [OpenStore.addr, nBlockAddr, blockAddr, nameAddr, fileAddr, fileBytes, freeRpAddr,
      numBlocks]
    omega
  · simp [OpenStore.addr, flagsAddr]
  · rw [stays_inside_iff]
    have hne : longName ≠ CString.empty := by decide
    rintro (⟨k, hk⟩ | ⟨-, hlen⟩)
    · exact fresh_noMatch _ _ hne k hk.1 hk.2.1
    · rw [longName_strlen] at hlen
      simp [maxNamelen] at hlen
  · simp [OpenStore.addr, blockAddr, maxNamelen]
  · have hlast : longName.bytes.length = 1024 := longName_strlen
    rw [OpenStore.bytes, List.getElem?_append_right hlast.le, hlast]
    rfl

end Pthabt.Myfs
