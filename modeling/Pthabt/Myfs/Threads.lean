import Pthabt.Myfs.Operations
import Pthabt.Lib.Tickets

/-! `myfs_get_lba(i, offset, 1)` and `__myfs_unlink` run by several threads. An allocation holds
the mutex of its file and an unlink `myfs_mutex`; they meet in the ring and in the block tables.
Threads interleave at single loads, stores and compare-and-swaps. -/

namespace Pthabt.Myfs

open Lib Run

variable {N : ℕ}

/-- Where a thread is in `myfs_get_lba` for index `b` of file `i`: before it takes the mutex,
the test of the block, the load of `free_blocks_rp`, the compare-and-swap, the load of the cell,
the store of the block `v`, the load and the store of `n_block`, the release of the mutex, or one of
the tests of the assertion; or where in `__myfs_unlink` for file `fd`: before it takes the mutex,
the test of the loop, the load of `free_blocks_wp`, the compare-and-swap, the load of the block, the
store to the cell, the store of `INACTIVE_BLOCK`, one of the stores after the loop, or the
release of the mutex. The number `p` counts the compare-and-swaps of the same kind. -/
inductive ThreadPc where
  | idle
  | lockFile (i b : ℕ)
  | test (i b : ℕ)
  | loadRp (i b : ℕ)
  | casRp (i b oldVal : ℕ)
  | loadCell (i b oldVal p : ℕ)
  | setBlock (i b p : ℕ) (v : ℤ)
  | loadNBlock (i b : ℕ)
  | setNBlock (i b n : ℕ)
  | unlockFile (i b : ℕ)
  | check (i b : ℕ)
  | assert (i b : ℕ)
  | lock (fd : ℕ)
  | loop (fd j : ℕ)
  | loadWp (fd j : ℕ)
  | casWp (fd j oldVal : ℕ)
  | loadBlock (fd j oldVal p : ℕ)
  | setCell (fd j oldVal p : ℕ) (v : ℤ)
  | clear (fd j : ℕ)
  | setName (fd : ℕ)
  | zeroNBlock (fd : ℕ)
  | setRefCount (fd : ℕ)
  | setFlags (fd : ℕ)
  | unlock (fd : ℕ)
  deriving DecidableEq

/-- The file system, `myfs_file_mutex` and `myfs_mutex` with the threads that hold them, and the
places of the threads; which accesses to the ring were made, and the blocks that allocations have
stored in a block table, each with its number. -/
structure Threads (N : ℕ) where
  fs : Fs N
  fileMutex : ℕ → Option ℕ
  mutex : Option ℕ
  pc : ℕ → ThreadPc
  tickets : Tickets ℤ
  handed : List (ℕ × ℤ)

namespace Superblock

/-- `file[i].block[b] = v`. -/
def setBlock (sb : Superblock N) (i b : ℕ) (v : ℤ) : Superblock N :=
  sb.setFile i { sb.file i with block := Function.update (sb.file i).block b v }

/-- `file[i].n_block = n`. -/
def setNBlock (sb : Superblock N) (i n : ℕ) : Superblock N :=
  sb.setFile i { sb.file i with nBlock := n }

/-- `file[i].name[0] = 0`. -/
def clearName (sb : Superblock N) (i : ℕ) : Superblock N :=
  sb.setFile i { sb.file i with name := CString.empty }

end Superblock

namespace Threads

def goto (s : Threads N) (t : ℕ) (pc : ThreadPc) : Threads N :=
  { s with pc := Function.update s.pc t pc }

/-- `file[i].block[b]`. -/
def block (s : Threads N) (i b : ℕ) : ℤ := (s.fs.sb.file i).block b

def setSb (s : Threads N) (sb : Superblock N) : Threads N := { s with fs := { s.fs with sb := sb } }

def setFree (s : Threads N) (c : Cyclic N ℤ) : Threads N := s.setSb { s.fs.sb with free := c }

def setState (s : Threads N) (fd : ℕ) (st : FileState) : Threads N :=
  { s with fs := s.fs.setState fd st }

/-- The next step of a thread in `myfs_get_lba`. -/
def nextGetLba (t : ℕ) (s : Threads N) : ThreadPc → Outcome (Threads N)
  | .lockFile i b =>
    match s.fileMutex i with
    | none => .ok ({ s with fileMutex := Function.update s.fileMutex i (some t) }.goto t (.test i b))
    | some _ => .ok s
  | .test i b => .ok (s.goto t (if s.block i b = inactiveBlock then .loadRp i b else .unlockFile i b))
  | .loadRp i b => .ok (s.goto t (.casRp i b s.fs.sb.free.rp))
  | .casRp i b oldVal =>
    if s.fs.sb.free.rp = oldVal then
      .ok ({ s.setFree s.fs.sb.free.pop with tickets := s.tickets.take }.goto t
        (.loadCell i b oldVal s.tickets.reads))
    else .ok (s.goto t (.loadRp i b))
  | .loadCell i b oldVal p =>
    .ok ({ s with tickets := s.tickets.load p }.goto t
      (.setBlock i b p (s.fs.sb.free.cell oldVal)))
  | .setBlock i b p v =>
    .ok ({ s.setSb (s.fs.sb.setBlock i b v) with handed := s.handed ++ [(p, v)] }.goto t
      (.loadNBlock i b))
  | .loadNBlock i b => .ok (s.goto t (.setNBlock i b (s.fs.sb.file i).nBlock))
  | .setNBlock i b n =>
    .ok ((s.setSb (s.fs.sb.setNBlock i ((n + 1) % 2 ^ 64))).goto t (.unlockFile i b))
  | .unlockFile i b =>
    .ok ({ s with fileMutex := Function.update s.fileMutex i none }.goto t (.check i b))
  | .check i b => .ok (s.goto t (if s.block i b = inactiveBlock then .assert i b else .idle))
  | .assert i b => if s.block i b = inactiveBlock then .abort s else .ok (s.goto t .idle)
  | _ => .ok s

/-- The next step of a thread in `__myfs_unlink`, with the mutex. -/
def nextUnlink (t : ℕ) (s : Threads N) : ThreadPc → Outcome (Threads N)
  | .lock fd =>
    match s.mutex with
    | none => .ok ({ s with mutex := some t }.goto t (.loop fd 0))
    | some _ => .ok s
  | .loop fd j => .ok (s.goto t (if j < (s.fs.sb.file fd).nBlock then .loadWp fd j else .setName fd))
  | .loadWp fd j => .ok (s.goto t (.casWp fd j s.fs.sb.free.wp))
  | .casWp fd j oldVal =>
    if s.fs.sb.free.wp = oldVal then
      .ok ({ s.setFree s.fs.sb.free.reserve with tickets := s.tickets.reserve }.goto t
        (.loadBlock fd j oldVal s.tickets.writes))
    else .ok (s.goto t (.loadWp fd j))
  | .loadBlock fd j oldVal p =>
    if j < maxBlocksPerFile then .ok (s.goto t (.setCell fd j oldVal p (s.block fd j))) else .fault
  | .setCell fd j oldVal p v =>
    .ok ({ s.setFree (s.fs.sb.free.store oldVal v) with tickets := s.tickets.store p v }.goto t
      (.clear fd j))
  | .clear fd j => .ok ((s.setSb (s.fs.sb.setBlock fd j inactiveBlock)).goto t (.loop fd (j + 1)))
  | .setName fd => .ok ((s.setSb (s.fs.sb.clearName fd)).goto t (.zeroNBlock fd))
  | .zeroNBlock fd => .ok ((s.setSb (s.fs.sb.setNBlock fd 0)).goto t (.setRefCount fd))
  | .setRefCount fd =>
    .ok ((s.setState fd { s.fs.states fd with refCount := 0 }).goto t (.setFlags fd))
  | .setFlags fd =>
    .ok ((s.setState fd { s.fs.states fd with flags := ⟨false, false⟩ }).goto t (.unlock fd))
  | .unlock _ => .ok ({ s with mutex := none }.goto t .idle)
  | _ => .ok s

end Threads

/-- The thread is in `__myfs_unlink`. -/
def ThreadPc.inUnlink : ThreadPc → Bool
  | .lock _ | .loop _ _ | .loadWp _ _ | .casWp _ _ _ | .loadBlock _ _ _ _ | .setCell _ _ _ _ _
  | .clear _ _ | .setName _ | .zeroNBlock _ | .setRefCount _ | .setFlags _ | .unlock _ => true
  | _ => false

/-- A thread calls a function, or goes on in it. -/
inductive ThreadStep where
  | getLba (t i b : ℕ)
  | unlink (t fd : ℕ)
  | next (t : ℕ)

def ThreadStep.step : ThreadStep → Threads N → Outcome (Threads N)
  | .getLba t i b, s => .ok (s.goto t (.lockFile i b))
  | .unlink t fd, s => .ok (s.goto t (.lock fd))
  | .next t, s => if (s.pc t).inUnlink then s.nextUnlink t (s.pc t) else s.nextGetLba t (s.pc t)

/-- Calls are for files and indices that exist, and no allocation advances `free_blocks_rp` when
the ring is empty. -/
def ThreadStep.Admissible : ThreadStep → Threads N → Prop
  | .getLba t i b, s => s.pc t = .idle ∧ i < maxFiles ∧ b < maxBlocksPerFile
  | .unlink t fd, s => s.pc t = .idle ∧ fd < maxFiles
  | .next t, s =>
    match s.pc t with
    | .casRp _ _ oldVal => s.fs.sb.free.rp = oldVal → s.fs.sb.free.rp ≠ s.fs.sb.free.wp
    | _ => True

/-- No block was stored in a block table that was not in the ring, or twice, and no two indices
have the same block, except while one of them is released. -/
structure HandedOut (s : Threads N) : Prop where
  stored : ∀ p v, (p, v) ∈ s.handed → s.tickets.entry p = some v
  once : (s.handed.map Prod.fst).Nodup
  single : ∀ i b k l, i < maxFiles → b < maxBlocksPerFile → k < maxFiles → l < maxBlocksPerFile →
    s.block i b ≠ inactiveBlock → s.block i b = s.block k l →
    i = k ∧ b = l ∨ ∃ t, s.pc t = .clear i b ∨ s.pc t = .clear k l

/-- The accesses to a cell come in the order of the compare-and-swaps, the unlinks leave room in
the ring, and they stay in their block table. -/
def ThreadStep.Ordered : ThreadStep → Threads N → Prop
  | .next t, s =>
    match s.pc t with
    | .loadCell _ _ _ p => s.tickets.entry p ≠ none
    | .setCell _ _ _ p _ => N ≤ p → s.tickets.loaded (p - N) = true
    | .casWp _ _ oldVal => s.fs.sb.free.wp = oldVal → (s.fs.sb.free.wp + 1) % N ≠ s.fs.sb.free.rp
    | .loadBlock _ j _ _ => j < maxBlocksPerFile
    | _ => True
  | _, _ => True

/-- No call has begun. -/
def Threads.begin_ (fs : Fs N) : Threads N where
  fs := fs
  fileMutex _ := none
  mutex := none
  pc _ := .idle
  tickets := .ofRing fs.sb.free
  handed := []

end Pthabt.Myfs
