import Pthabt.Lib.Cyclic
import Pthabt.Lib.CString
import Mathlib.Algebra.Order.Group.Unbundled.Int
import Mathlib.Algebra.Order.Ring.Int

/-! The persistent superblock of myfs and the volatile state of its file slots
(`myfs.h`, `myfs.c`). The number `N` of ring cells, `NUM_BLOCKS` in the source, is
a parameter; the other sizes are the source's constants. The operations are the
bodies of the source under its mutexes, each run without interruption. -/

namespace Pthabt.Myfs

open Lib

/-- `MYFS_BLOCK_SIZE`. -/
@[irreducible] def blockSize : ℕ := 2 * 1024 * 1024

/-- `NUM_BLOCKS`. -/
@[irreducible] def numBlocks : ℕ := 700 * 1024

/-- `MYFS_MAX_BLOCKS_PER_FILE`. -/
@[irreducible] def maxBlocksPerFile : ℕ := 1024 * 128

/-- `MYFS_MAX_NAMELEN`, the terminator included. -/
@[irreducible] def maxNamelen : ℕ := 1024

/-- `MYFS_MAX_FILES`. -/
@[irreducible] def maxFiles : ℕ := 4096

/-- `MYFS_MAGIC`. -/
def myfsMagic : ℕ := 0xdeadcafebabeface

/-- `INACTIVE_BLOCK`. -/
def inactiveBlock : ℤ := -1

/-- `file_t`. Only the bytes of `name` before its NUL are ever read. -/
structure File where
  name : CString
  block : ℕ → ℤ
  nBlock : ℕ

/-- `superblock_t`; `free` is `free_blocks` with its two positions. -/
structure Superblock (N : ℕ) where
  magic : ℕ
  free : Cyclic N ℤ
  file : ℕ → File

/-- The two bits of `flags` that are ever set. -/
structure Flags where
  opened : Bool
  unlinked : Bool
  deriving DecidableEq

/-- `MYFS_FILE_OPENED`. -/
def fileOpened : Flags := ⟨true, false⟩

/-- `myfs_file_state_t`; `refCount` counts modulo `2 ^ 16`. -/
structure FileState where
  flags : Flags
  refCount : ℕ

/-- The superblock and `myfs_file_states`. -/
structure Fs (N : ℕ) where
  sb : Superblock N
  states : ℕ → FileState

variable {N : ℕ}

namespace Superblock

def setFile (sb : Superblock N) (i : ℕ) (f : File) : Superblock N :=
  { sb with file := Function.update sb.file i f }

@[simp] theorem setFile_free (sb : Superblock N) (i : ℕ) (f : File) :
    (sb.setFile i f).free = sb.free := rfl

@[simp] theorem setFile_self (sb : Superblock N) (i : ℕ) (f : File) :
    (sb.setFile i f).file i = f := by simp [setFile]

theorem setFile_of_ne (sb : Superblock N) (f : File) {i k : ℕ} (h : k ≠ i) :
    (sb.setFile i f).file k = sb.file k := by simp [setFile, h]

end Superblock

namespace Fs

def setState (s : Fs N) (i : ℕ) (st : FileState) : Fs N :=
  { s with states := Function.update s.states i st }

@[simp] theorem setState_sb (s : Fs N) (i : ℕ) (st : FileState) : (s.setState i st).sb = s.sb := rfl

@[simp] theorem setState_self (s : Fs N) (i : ℕ) (st : FileState) :
    (s.setState i st).states i = st := by simp [setState]

theorem setState_of_ne (s : Fs N) (st : FileState) {i k : ℕ} (h : k ≠ i) :
    (s.setState i st).states k = s.states k := by simp [setState, h]

end Fs

/-! ### Initialisation -/

/-- `myfs_superblock_init`. It leaves every `n_block`, and the ring's last cell, as it was. -/
def myfsSuperblockInit (sb : Superblock N) : Superblock N where
  magic := myfsMagic
  free :=
    { cell := fun i => if i < N - 1 then i else sb.free.cell i
      rp := 0
      wp := N - 1
      rp_lt := sb.free.pos
      wp_lt := Nat.sub_one_lt_of_lt sb.free.pos }
  file := fun i =>
    if i < maxFiles then
      { name := CString.empty
        block := fun j => if j < maxBlocksPerFile then inactiveBlock else (sb.file i).block j
        nBlock := (sb.file i).nBlock }
    else sb.file i

/-- `myfs_mount`, once the file is mapped. -/
def myfsMount (sb : Superblock N) : Fs N where
  sb := if sb.magic ≠ myfsMagic then myfsSuperblockInit sb else sb
  states := fun _ => ⟨⟨false, false⟩, 0⟩

/-! ### Unlink -/

/-- One iteration of the loop of `__myfs_unlink`. -/
def releaseBlock (sb : Superblock N) (fd j : ℕ) : Superblock N :=
  { sb with free := sb.free.push ((sb.file fd).block j) }.setFile fd
    { sb.file fd with block := Function.update (sb.file fd).block j inactiveBlock }

/-- The superblock after `n` iterations of the loop of `__myfs_unlink`. -/
def releaseBlocks (sb : Superblock N) (fd : ℕ) : ℕ → Superblock N
  | 0 => sb
  | n + 1 => releaseBlock (releaseBlocks sb fd n) fd n

/-- `__myfs_unlink`. -/
def _myfsUnlink (s : Fs N) (fd : ℕ) : Fs N :=
  let sb := releaseBlocks s.sb fd (s.sb.file fd).nBlock
  { s with sb := sb.setFile fd { sb.file fd with name := CString.empty, nBlock := 0 } }.setState fd
    ⟨⟨false, false⟩, 0⟩

/-- `__myfs_try_unlink`. -/
def _myfsTryUnlink (s : Fs N) (fd : ℕ) : Fs N :=
  let s := s.setState fd { s.states fd with flags := { (s.states fd).flags with unlinked := true } }
  if (s.states fd).refCount = 0 then _myfsUnlink s fd else s

/-- `myfs_unlink_fd`. -/
def myfsUnlinkFd (s : Fs N) (fd : ℕ) : Fs N := _myfsTryUnlink s fd

/-- `strncmp(filename, superblock->file[i].name, strlen(filename)) == 0`. -/
def nameMatches (sb : Superblock N) (filename : CString) (i : ℕ) : Prop :=
  CString.strncmp filename.bytes (sb.file i).name.bytes filename.strlen = 0

instance (sb : Superblock N) (filename : CString) (i : ℕ) :
    Decidable (nameMatches sb filename i) :=
  inferInstanceAs (Decidable (_ = _))

/-- The state after `k` iterations of the loop of `myfs_unlink`. -/
def unlinkScan (s : Fs N) (filename : CString) : ℕ → Fs N
  | 0 => s
  | k + 1 =>
    let s := unlinkScan s filename k
    if nameMatches s.sb filename k then _myfsTryUnlink s k else s

/-- `myfs_unlink`. -/
def myfsUnlink (s : Fs N) (filename : CString) : Fs N := unlinkScan s filename maxFiles

/-! ### Open and close -/

/-- The loop of `myfs_open` over the slots still to visit: the slot that matches, or the
first empty one. -/
def openScan (sb : Superblock N) (filename : CString) : List ℕ → Option ℕ → ℕ ⊕ Option ℕ
  | [], emptyI => .inr emptyI
  | i :: is, emptyI =>
    if nameMatches sb filename i then .inl i
    else openScan sb filename is
      (if emptyI = none ∧ (sb.file i).name = CString.empty then some i else emptyI)

/-- `myfs_open`. There is no result when the name is stored outside a slot's name field:
in the slot before the first one when none is empty, or past the end of the field. -/
def myfsOpen (s : Fs N) (filename : CString) : Option (Fs N × ℕ) :=
  match openScan s.sb filename (List.range maxFiles) none with
  | .inl i => some (s.setState i { s.states i with flags := fileOpened }, i)
  | .inr none => none
  | .inr (some i) =>
    if filename.strlen < maxNamelen then
      some ({ s with sb := s.sb.setFile i { s.sb.file i with name := filename, nBlock := 0 } }.setState
        i { s.states i with flags := fileOpened }, i)
    else none

/-- `myfs_close`. -/
def myfsClose (s : Fs N) (fd : ℕ) : Fs N :=
  s.setState fd
    { s.states fd with flags := { (s.states fd).flags with opened := !(s.states fd).flags.opened } }

/-! ### Blocks -/

/-- The 32 bits of `int i_block = offset / MYFS_BLOCK_SIZE`. From `2 ^ 31` on they are a
negative `int`, so they index the block table exactly when below its length. -/
def iBlock (offset : ℕ) : ℕ := offset / blockSize % 2 ^ 32

/-- The allocation of `myfs_get_lba`: the ring's next block goes to an unmapped index. -/
def mapBlock (sb : Superblock N) (i b : ℕ) : Superblock N :=
  if (sb.file i).block b = inactiveBlock then
    { sb with free := sb.free.pop }.setFile i
      { sb.file i with
        block := Function.update (sb.file i).block b (sb.free.cell sb.free.rp)
        nBlock := (sb.file i).nBlock + 1 }
  else sb

/-- The address in 512-byte sectors, in 64-bit arithmetic. -/
def lbaOf (block : ℤ) (offset : ℕ) : ℕ :=
  ((block * blockSize + (offset % blockSize : ℕ)) % 2 ^ 64).toNat / 512

/-- `myfs_get_lba`. There is no result when the index lies outside the block table, and no
address when the assertion on the mapped block fails. -/
def myfsGetLba (sb : Superblock N) (i offset : ℕ) (write : Bool) :
    Option (Superblock N × Option ℕ) :=
  if iBlock offset < maxBlocksPerFile then
    let b := iBlock offset
    let sb := if write then mapBlock sb i b else sb
    some (sb, if (sb.file i).block b = inactiveBlock then none
      else some (lbaOf ((sb.file i).block b) offset))
  else none

/-- `myfs_get_size`. -/
def myfsGetSize (sb : Superblock N) (i : ℕ) : ℕ := (sb.file i).nBlock * blockSize % 2 ^ 64

/-! ### Reference counts -/

/-- `__sync_fetch_and_add` on the reference count of a slot. -/
def fetchAndAdd (s : Fs N) (hookfd n : ℕ) : Fs N :=
  s.setState hookfd { s.states hookfd with refCount := ((s.states hookfd).refCount + n) % 2 ^ 16 }

/-- `myfs_increment_ref`, with its result. -/
def myfsIncrementRef (s : Fs N) (hookfd : ℕ) : Fs N × ℤ :=
  if (s.states hookfd).flags = fileOpened then (fetchAndAdd s hookfd 1, 0) else (s, -1)

/-- `myfs_decrement_ref`. The test reads the count before the decrement. -/
def myfsDecrementRef (s : Fs N) (hookfd : ℕ) : Fs N :=
  let refCount := (s.states hookfd).refCount
  let s := fetchAndAdd s hookfd (2 ^ 16 - 1)
  if refCount = 0 ∧ (s.states hookfd).flags.unlinked then myfsUnlinkFd s hookfd else s

end Pthabt.Myfs
