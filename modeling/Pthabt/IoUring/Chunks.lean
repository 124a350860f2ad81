import Pthabt.IoUring.Core
import Pthabt.Lib.Bytes

/-! A read or a write that `hook_function` (`hook.c`) passes to the ring, when the kernel completes
every chunk in full. The offset `-1` stands for the current offset of the file, which a request at
it advances. The code adds the offset of the chunk to `pos`, so with more than one chunk the
second one of `SYS_read` or `SYS_write` goes to `unit - 1`. -/

namespace Pthabt.IoUring

open Lib.Bytes

/-- The system calls that `hook_function` passes to `__io_uring_read` and `__io_uring_write`. -/
inductive RwCall where
  | read (fd buf count : ℕ)
  | pread64 (fd buf count pos : ℕ)
  | write (fd buf len : ℕ)
  | pwrite64 (fd buf len pos : ℕ)

/-- The arguments that they pass. -/
def RwCall.io : RwCall → Io
  | .read fd buf count => ⟨false, fd, buf, count, -1⟩
  | .pread64 fd buf count pos => ⟨false, fd, buf, count, pos⟩
  | .write fd buf len => ⟨true, fd, buf, len, -1⟩
  | .pwrite64 fd buf len pos => ⟨true, fd, buf, len, pos⟩

/-- Whether the call gives the position in the file. -/
def RwCall.Positioned (c : RwCall) : Prop := 0 ≤ c.io.pos

/-- An open file with its current offset, and the memory of the process. -/
structure OpenFile (α : Type*) where
  data : ℕ → α
  fpos : ℕ
  mem : ℕ → α

variable {α : Type*}

/-- The place in the file that an offset means. -/
def OpenFile.place (s : OpenFile α) (off : ℤ) : ℕ := if off = -1 then s.fpos else off.toNat

/-- The kernel completes a request in full. -/
def Sqe.perform (e : Sqe) (s : OpenFile α) : OpenFile α where
  data := if e.write then blit s.data s.mem (s.place e.off) e.addr e.len else s.data
  fpos := if e.off = -1 then s.fpos + e.len else s.fpos
  mem := if e.write then s.mem else blit s.mem s.data e.addr (s.place e.off) e.len

theorem Io.unit_pos (io : Io) : 0 < io.unit := by
  rw [Io.unit]
  split_ifs <;> decide

/-- The loop of `__io_uring_read` and `__io_uring_write` from `off` on, which waits for each chunk
before it prepares the next one. `slot` tells the entry of the ring that a chunk gets. -/
def Io.transfer (io : Io) (slot : ℕ → ℕ) (off : ℕ) (s : OpenFile α) : OpenFile α :=
  if off < io.count then io.transfer slot (off + io.unit) ((io.prep off (slot off)).perform s) else s
termination_by io.count - off
decreasing_by
  have := io.unit_pos
  omega

/-- The whole range in one request. -/
def Io.whole (io : Io) (slot : ℕ) : Sqe := ⟨io.write, io.fd, io.buf, io.count, io.pos, slot⟩

/-- The first `n` bytes of the range in one request. -/
def Io.front (io : Io) (n : ℕ) : Sqe := ⟨io.write, io.fd, io.buf, n, io.pos, 0⟩

section Transfer

variable {io : Io} {s : OpenFile α} {off : ℕ}

theorem sz_eq_min (io : Io) (off : ℕ) : io.sz off = min io.unit (io.count - off) := by
  rw [Io.sz]
  split_ifs with h
  · exact (Nat.min_eq_left (Nat.le_of_lt h)).symm
  · exact (Nat.min_eq_right (Nat.le_of_not_lt h)).symm

theorem transfer_of_lt (slot : ℕ → ℕ) (h : off < io.count) : io.transfer slot off s =
    io.transfer slot (off + io.unit) ((io.prep off (slot off)).perform s) := by
  rw [Io.transfer, if_pos h]

theorem transfer_of_le (slot : ℕ → ℕ) (h : io.count ≤ off) : io.transfer slot off s = s := by
  rw [Io.transfer, if_neg (Nat.not_lt.mpr h)]

/-- Only what the kernel reads of a request counts. -/
theorem perform_congr {e e' : Sqe} (hw : e.write = e'.write) (ha : e.addr = e'.addr)
    (hl : e.len = e'.len) (ho : e.off = e'.off) : e.perform s = e'.perform s := by
  simp [Sqe.perform, hw, ha, hl, ho]

theorem perform_front_zero (io : Io) (s : OpenFile α) : (io.front 0).perform s = s := by
  by_cases h : io.pos = -1
  · simp [Sqe.perform, Io.front, h]
  · simp [Sqe.perform, Io.front, h]

/-- The next chunk of a range with a position continues the part before it. -/
theorem perform_prep (hpos : 0 ≤ io.pos) (slot : ℕ) :
    (io.prep off slot).perform ((io.front off).perform s) = (io.front (off + io.sz off)).perform s := by
  have hfront : io.pos ≠ -1 := by omega
  have hprep : io.pos + off ≠ -1 := by omega
  have hto : (io.pos + off).toNat = io.pos.toNat + off := by omega
  simp only [Sqe.perform, Io.prep, Io.front, OpenFile.place, hfront, hprep, if_false, hto]
  cases io.write with
  | true => simp [blit_blit]
  | false => simp [blit_blit]

/-- The chunks from `off` on complete the part before it to the whole range. -/
theorem transfer_of_positioned (hpos : 0 ≤ io.pos) (slot : ℕ → ℕ) (hoff : off ≤ io.count) :
    io.transfer slot off ((io.front off).perform s) = (io.front io.count).perform s := by
  induction h : io.count - off using Nat.strong_induction_on generalizing off with
  | _ n ih =>
    have hunit := io.unit_pos
    by_cases hlt : off < io.count
    · rw [transfer_of_lt slot hlt, perform_prep hpos]
      by_cases hlast : off + io.unit < io.count
      · have hsz : io.sz off = io.unit := by rw [sz_eq_min]; omega
        rw [hsz]
        exact ih _ (by omega) (Nat.le_of_lt hlast) rfl
      · have hsz : off + io.sz off = io.count := by rw [sz_eq_min]; omega
        rw [hsz, transfer_of_le slot (Nat.le_of_not_lt hlast)]
    · rw [Nat.le_antisymm hoff (Nat.le_of_not_lt hlt), transfer_of_le slot le_rfl]

/-- A range that fits one chunk. -/
theorem transfer_of_fits (slot : ℕ → ℕ) (hfits : io.count ≤ io.unit) :
    io.transfer slot 0 s = (io.front io.count).perform s := by
  by_cases h : 0 < io.count
  · have hsz : io.sz 0 = io.count := by rw [sz_eq_min]; omega
    rw [transfer_of_lt slot h, Nat.zero_add, transfer_of_le slot hfits]
    exact perform_congr rfl rfl hsz (Int.add_zero _)
  · have h0 : io.count = 0 := by omega
    rw [transfer_of_le slot (Nat.le_of_not_lt h), h0, perform_front_zero]

theorem perform_fpos (e : Sqe) (h : e.off ≠ -1) : (e.perform s).fpos = s.fpos := by
  simp [Sqe.perform, h]

/-- The chunks after the first one leave the current offset alone. -/
theorem transfer_fpos (hpos : io.pos = -1) (slot : ℕ → ℕ) (hoff : 0 < off) :
    (io.transfer slot off s).fpos = s.fpos := by
  induction h : io.count - off using Nat.strong_induction_on generalizing off s with
  | _ n ih =>
    have hunit := io.unit_pos
    by_cases hlt : off < io.count
    · have hne : (io.prep off (slot off)).off ≠ -1 := by
        show io.pos + off ≠ -1
        omega
      rw [transfer_of_lt slot hlt, ih _ (by omega) (by omega) rfl, perform_fpos _ hne]
    · rw [transfer_of_le slot (Nat.le_of_not_lt hlt)]

end Transfer

theorem RwCall.pos_cases (c : RwCall) : c.io.pos = -1 ∨ c.Positioned := by
  cases c with
  | read | write => exact Or.inl rfl
  | pread64 _ _ _ pos | pwrite64 _ _ _ pos => exact Or.inr (Int.natCast_nonneg pos)

/-- The chunks of a call do what one request for its range does if and only if the call gives a
position or its range fits one chunk. -/
theorem chunked_iff_one (c : RwCall) (slot : ℕ → ℕ) (s : OpenFile α) :
    c.io.transfer slot 0 s = (c.io.whole (slot 0)).perform s ↔
      c.Positioned ∨ c.io.count ≤ c.io.unit := by
  have hwhole : (c.io.whole (slot 0)).perform s = (c.io.front c.io.count).perform s :=
    perform_congr rfl rfl rfl rfl
  rw [hwhole]
  constructor
  · intro h
    rcases c.pos_cases with hpos | hpos
    · right
      by_contra hcount
      have hlt : 0 < c.io.count := by omega
      have hsz : c.io.sz 0 = c.io.unit := by rw [sz_eq_min]; omega
      have hfpos := congrArg OpenFile.fpos h
      rw [transfer_of_lt slot hlt, transfer_fpos hpos slot (by have := c.io.unit_pos; omega)] at hfpos
      simp only [Sqe.perform, Io.prep, Io.front, hpos, hsz] at hfpos
      simp at hfpos
      omega
    · exact Or.inl hpos
  · rintro (hpos | hfits)
    · have h := transfer_of_positioned (s := s) hpos slot (Nat.zero_le _)
      rwa [perform_front_zero] at h
    · exact transfer_of_fits slot hfits

/-- A file whose cell at each place holds the place, at its start. -/
def counting : OpenFile ℕ := ⟨id, 0, fun _ => 0⟩

/-- A `SYS_read` of one byte more than a chunk takes that byte from the place `unit - 1`, which it
has read before, and leaves it to be read again. -/
theorem long_read_not_one :
    (RwCall.read 3 0 (4096 * 256 + 1)).io.transfer id 0 counting ≠
      ((RwCall.read 3 0 (4096 * 256 + 1)).io.whole 0).perform counting ∧
    ((RwCall.read 3 0 (4096 * 256 + 1)).io.transfer id 0 counting).mem (4096 * 256) = 4096 * 256 - 1 ∧
    ((RwCall.read 3 0 (4096 * 256 + 1)).io.transfer id 0 counting).fpos = 4096 * 256 := by
  have htwo : (RwCall.read 3 0 (4096 * 256 + 1)).io.transfer id 0 counting =
      ((RwCall.read 3 0 (4096 * 256 + 1)).io.prep (4096 * 256) (4096 * 256)).perform
        (((RwCall.read 3 0 (4096 * 256 + 1)).io.prep 0 0).perform counting) := by
    rw [transfer_of_lt id (by decide), transfer_of_lt id (by decide), transfer_of_le id (by decide)]
    rfl
  refine ⟨fun h => ?_, ?_, ?_⟩
  · rcases (chunked_iff_one _ id counting).mp h with h | h
    · exact absurd (show (0 : ℤ) ≤ -1 from h) (by decide)
    · exact absurd h (by decide)
  · rw [htwo]
    rfl
  · rw [htwo]
    rfl

end Pthabt.IoUring
