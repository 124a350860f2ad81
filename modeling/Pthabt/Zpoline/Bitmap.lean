import Mathlib.Logic.Function.Basic
import Pthabt.Lib.Memory

/-! The rewritten address check (`zpoline.c`): a bitmap with one bit for each address below `2 ^ 48`, in
which the rewriting records the instructions that it replaces. -/

namespace Pthabt.Zpoline

open Lib Memory

def bmSize : ℕ := (1 <<< 48) >>> 3

abbrev Bitmap := ℕ → BitVec 8

def bitmapSet (bm : Bitmap) (val : Word) : Bitmap :=
  Function.update bm (val >>> 3).toNat (bm (val >>> 3).toNat ||| (1 : BitVec 8) <<< (val &&& 7).toNat)

def isBitmapSet (bm : Bitmap) (val : Word) : Bool := bm (val >>> 3).toNat &&& (1 : BitVec 8) <<< (val &&& 7).toNat != 0

/-- There is no result when the assertion fails. -/
def recordReplacedInstructionAddr (bm : Bitmap) (addr : Word) : Option Bitmap :=
  if addr < (1 : Word) <<< 48 then some (bitmapSet bm addr) else none

def isReplacedInstructionAddr (bm : Bitmap) (addr : Word) : Option Bool :=
  if addr < (1 : Word) <<< 48 then some (isBitmapSet bm addr) else none

variable {bm : Bitmap} {v w : Word}

/-- Only the bytes of the bitmap are used. -/
theorem index_lt_bmSize (h : v < (1 : Word) <<< 48) : (v >>> 3).toNat < bmSize := by
  have hv : v.toNat < 2 ^ 48 := h
  rw [BitVec.toNat_ushiftRight, Nat.shiftRight_eq_div_pow, bmSize, Nat.shiftRight_eq_div_pow, Nat.shiftLeft_eq]
  omega

theorem index_eq (v : Word) : (v >>> 3).toNat = v.toNat / 8 := by
  rw [BitVec.toNat_ushiftRight, Nat.shiftRight_eq_div_pow]

theorem bit_eq (v : Word) : (1 : BitVec 8) <<< (v &&& 7).toNat = BitVec.twoPow 8 (v.toNat % 8) := by
  have hmod : (v &&& 7).toNat = v.toNat % 8 := by
    rw [BitVec.toNat_and]
    exact Nat.and_two_pow_sub_one_eq_mod v.toNat 3
  rw [hmod, BitVec.twoPow_eq]
  rfl

theorem isBitmapSet_eq (bm : Bitmap) (v : Word) : isBitmapSet bm v = (bm (v.toNat / 8)).getLsbD (v.toNat % 8) := by
  have hlt : v.toNat % 8 < 8 := Nat.mod_lt _ (by omega)
  rw [isBitmapSet, index_eq, bit_eq, BitVec.and_twoPow]
  by_cases h : (bm (v.toNat / 8)).getLsbD (v.toNat % 8)
  · have hne : BitVec.twoPow 8 (v.toNat % 8) ≠ 0#8 := by
      intro h0
      have hbit := congrArg (fun x => x.getLsbD (v.toNat % 8)) h0
      simp [hlt] at hbit
    simp [h, hne]
  · simp [h]

/-- A recorded address is found, and no other that was not. -/
theorem isBitmapSet_bitmapSet : isBitmapSet (bitmapSet bm v) w = (decide (w = v) || isBitmapSet bm w) := by
  rw [isBitmapSet_eq, isBitmapSet_eq, bitmapSet, index_eq, bit_eq]
  have heq : w = v ↔ w.toNat / 8 = v.toNat / 8 ∧ w.toNat % 8 = v.toNat % 8 := by
    rw [BitVec.toNat_eq]
    omega
  by_cases hdiv : w.toNat / 8 = v.toNat / 8
  · have hlt : v.toNat % 8 < 8 := Nat.mod_lt _ (by omega)
    rw [hdiv, Function.update_self, BitVec.getLsbD_or, BitVec.getLsbD_twoPow, Bool.or_comm]
    simp [heq, hdiv, hlt, eq_comm]
  · rw [Function.update_of_ne hdiv]
    simp [heq, hdiv]

end Pthabt.Zpoline
