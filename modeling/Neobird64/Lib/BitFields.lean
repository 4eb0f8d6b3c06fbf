import Mathlib.Data.BitVec
import Mathlib.Tactic.Common

/-! Fields of a word that are taken out with a shift and a mask. -/

namespace BitFields
variable {w n k : Nat} {x mask : BitVec w}

/-- A mask of the low `n` bits does nothing before the conversion to `n` bits. -/
theorem setWidth_and_mask (n : Nat) (hmask : mask.toNat = 2 ^ n - 1) : (x &&& mask).setWidth n = x.setWidth n := by
  apply BitVec.eq_of_toNat_eq
  rw [BitVec.toNat_setWidth, BitVec.toNat_setWidth, BitVec.toNat_and, hmask, Nat.and_two_pow_sub_one_eq_mod, Nat.mod_mod]

theorem setWidth_ushiftRight (k n : Nat) : (x >>> k).setWidth n = x.extractLsb' k n := by
  apply BitVec.eq_of_toNat_eq
  rw [BitVec.toNat_setWidth, BitVec.toNat_ushiftRight, BitVec.extractLsb'_toNat]

theorem field_eq (k n : Nat) (hmask : mask.toNat = 2 ^ n - 1) : ((x >>> k) &&& mask).setWidth n = x.extractLsb' k n := by
  rw [setWidth_and_mask n hmask, setWidth_ushiftRight]

theorem lowField_eq (n : Nat) (hmask : mask.toNat = 2 ^ n - 1) : (x &&& mask).setWidth n = x.extractLsb' 0 n := by
  rw [setWidth_and_mask n hmask, ← setWidth_ushiftRight, BitVec.ushiftRight_zero]

end BitFields
