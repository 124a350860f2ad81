import Mathlib.Data.Nat.ModEq
import Mathlib.Tactic.Ring

/-! Striping of 512-byte sectors over `ND` drives in chunks of eight, as `nvme_read_req`
and `nvme_write_req` compute it. -/

namespace Pthabt.Nvme

/-- `BLKSZ`. -/
def blksz : ℕ := 4096

/-- `RAID_FACTOR`, the sectors of a chunk. -/
def raidFactor : ℕ := 4096 / 512

/-- The drive of a sector. -/
def reqDid (nd lba : ℕ) : ℕ := lba / raidFactor % nd

/-- `CDW10`, a 32-bit word. -/
def reqCdw10 (nd lba : ℕ) : ℕ :=
  (lba / raidFactor / nd * raidFactor + lba % raidFactor) % 2 ^ 32

/-- Where a sector is. -/
def image (nd lba : ℕ) : ℕ × ℕ := (reqDid nd lba, reqCdw10 nd lba)

theorem raidFactor_eq : raidFactor = 8 := rfl

theorem chunk_le (nd lba : ℕ) : lba / raidFactor / nd * raidFactor + lba % raidFactor ≤ lba := by
  have h1 : lba / raidFactor / nd ≤ lba / raidFactor := Nat.div_le_self _ _
  have h2 : lba / raidFactor / nd * raidFactor ≤ lba / raidFactor * raidFactor :=
    Nat.mul_le_mul_right _ h1
  have h3 := Nat.div_add_mod' lba raidFactor
  omega

/-- Below `2 ^ 32` sectors the truncation of `CDW10` is without effect. -/
theorem reqCdw10_of_lt {nd lba : ℕ} (h : lba < 2 ^ 32) :
    reqCdw10 nd lba = lba / raidFactor / nd * raidFactor + lba % raidFactor :=
  Nat.mod_eq_of_lt (lt_of_le_of_lt (chunk_le nd lba) h)

/-- Drive and sector on it determine the sector. -/
theorem image_inj {nd a b : ℕ} (ha : a < 2 ^ 32) (hb : b < 2 ^ 32)
    (h : image nd a = image nd b) : a = b := by
  obtain ⟨hdid, hcdw⟩ := Prod.mk.inj h
  rw [reqCdw10_of_lt ha, reqCdw10_of_lt hb, raidFactor_eq] at hcdw
  simp only [reqDid, raidFactor_eq] at hdid
  have hquot : a / 8 / nd = b / 8 / nd := by omega
  have hchunk : a / 8 = b / 8 := by
    rw [← Nat.div_add_mod (a / 8) nd, ← Nat.div_add_mod (b / 8) nd, hquot, hdid]
  omega

theorem image_eq_iff {nd a b : ℕ} (ha : a < 2 ^ 32) (hb : b < 2 ^ 32) :
    image nd a = image nd b ↔ a = b :=
  ⟨image_inj ha hb, fun h => by rw [h]⟩

/-- The sectors of one chunk are consecutive on its drive. -/
theorem image_add {nd lba t : ℕ} (h : lba + t < 2 ^ 32) (ht : lba % raidFactor + t < raidFactor) :
    image nd (lba + t) = (reqDid nd lba, reqCdw10 nd lba + t) := by
  rw [raidFactor_eq] at ht
  have hdiv : (lba + t) / 8 = lba / 8 := by omega
  have hmod : (lba + t) % 8 = lba % 8 + t := by omega
  rw [image, reqDid, reqDid, reqCdw10_of_lt h, reqCdw10_of_lt (by omega), raidFactor_eq, hdiv, hmod,
    Nat.add_assoc]

end Pthabt.Nvme
