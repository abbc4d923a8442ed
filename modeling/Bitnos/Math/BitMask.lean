/-
# Masks

The words with ones below a bit, and what masking with them does. Source code writes
them as literals such as `0xff`; a literal and the mask are the same by computation.
-/

import Mathlib.Algebra.Order.Group.Nat

namespace BitMask

variable {w k : ℕ} {x : BitVec w}

/-- The word with ones below bit `k`. -/
def low (w k : ℕ) : BitVec w := BitVec.ofNat w (2 ^ k - 1)

theorem getLsbD_low (j : ℕ) : (low w k).getLsbD j = (decide (j < w) && decide (j < k)) := by
  rw [low, BitVec.getLsbD_ofNat, Nat.testBit_two_pow_sub_one]

theorem getLsbD_low_of_lt {j : ℕ} (hj : j < w) : (low w k).getLsbD j = decide (j < k) := by
  rw [getLsbD_low, decide_eq_true hj, Bool.true_and]

@[simp] theorem getLsbD_and_low (x : BitVec w) (j : ℕ) :
    (x &&& low w k).getLsbD j = (x.getLsbD j && decide (j < k)) := by
  rw [BitVec.getLsbD_and, getLsbD_low]
  by_cases hj : j < w
  · rw [decide_eq_true hj, Bool.true_and]
  · rw [BitVec.getLsbD_of_ge _ _ (Nat.le_of_not_lt hj), Bool.false_and, Bool.false_and]

/-- A number below `2 ^ k` has no bits from `k` on. -/
theorem getLsbD_of_lt (hx : x.toNat < 2 ^ k) {j : ℕ} (hj : k ≤ j) : x.getLsbD j = false :=
  Nat.testBit_lt_two_pow (Nat.lt_of_lt_of_le hx (Nat.pow_le_pow_right Nat.two_pos hj))

theorem toNat_and_low_lt (x : BitVec w) : (x &&& low w k).toNat < 2 ^ k := by
  rw [BitVec.toNat_and, low, BitVec.toNat_ofNat]
  exact Nat.lt_of_le_of_lt (Nat.le_trans Nat.and_le_right (Nat.mod_le _ _))
    (Nat.sub_lt (Nat.two_pow_pos k) Nat.one_pos)

/-- Masking keeps what lies below the mask. -/
theorem and_low_of_lt (hx : x.toNat < 2 ^ k) : x &&& low w k = x := by
  apply BitVec.eq_of_getLsbD_eq
  intro j hj
  rw [getLsbD_and_low]
  by_cases hlow : j < k
  · rw [decide_eq_true hlow, Bool.and_true]
  · rw [getLsbD_of_lt hx (Nat.le_of_not_lt hlow), Bool.false_and]

/-- Masking with ones further up keeps the bits under them. -/
theorem getLsbD_and_low_shiftLeft (x : BitVec w) (s j : ℕ) :
    (x &&& low w k <<< s).getLsbD j = (x.getLsbD j && decide (s ≤ j ∧ j < s + k)) := by
  rw [BitVec.getLsbD_and, BitVec.getLsbD_shiftLeft, getLsbD_low]
  by_cases hj : j < w
  · grind
  · rw [BitVec.getLsbD_of_ge _ _ (Nat.le_of_not_lt hj), Bool.false_and, Bool.false_and]

/-- A field of `k` bits, shifted down and masked. -/
theorem getLsbD_field (x : BitVec w) (s v j : ℕ) :
    (((x >>> s) &&& low w k).setWidth v).getLsbD j =
      (decide (j < v) && decide (j < k) && x.getLsbD (s + j)) := by
  rw [BitVec.getLsbD_setWidth, getLsbD_and_low, BitVec.getLsbD_ushiftRight, Bool.and_assoc,
    Bool.and_comm (x.getLsbD _)]

/-- A field masked to its own width is cut out of the word. -/
theorem field_eq_extractLsb' (x : BitVec w) (s : ℕ) :
    ((x >>> s) &&& low w k).setWidth k = x.extractLsb' s k := by
  apply BitVec.eq_of_getLsbD_eq
  intro j hj
  rw [getLsbD_field, BitVec.getLsbD_extractLsb', decide_eq_true hj, Bool.true_and]

end BitMask
