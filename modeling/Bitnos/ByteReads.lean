/-
# Reading byte by byte

`ReadByByte` puts an unsigned integer together from its bytes, the last byte first, so
that each step makes room for the next byte below. The registers of the descriptor
tables are stored as two integers without a gap, and `MakeDTR` reads them so.
-/

import Mathlib.Algebra.BigOperators.Intervals
import Mathlib.Algebra.BigOperators.Ring.Finset
import Bitnos.DescTable

namespace Bitnos

/-- The body of the loop in `ReadByByte`. -/
def ReadByByte.step (n : ℕ) (p : ℕ → BitVec 8) (result : BitVec (8 * n)) (i : ℕ) : BitVec (8 * n) :=
  (result <<< 8) ||| (p (n - 1 - i)).setWidth (8 * n)

/-- `ReadByByte`, for an unsigned integer type of `n` bytes. -/
def readByByte (n : ℕ) (p : ℕ → BitVec 8) : BitVec (8 * n) :=
  (List.range n).foldl (ReadByByte.step n p) 0#(8 * n)

/-- `MakeDTR` -/
def makeDTR (dtr : ℕ → BitVec 8) : DescriptorTableRegister where
  limit := readByByte 2 dtr
  base := readByByte 8 fun i => dtr (2 + i)

/-- The bytes of a value, lowest first. -/
def littleEndian {n : ℕ} (value : BitVec (8 * n)) (i : ℕ) : BitVec 8 := value.extractLsb' (8 * i) 8

/-- What `sgdt` and `sidt` store: the limit, and the base right behind it. -/
def storedDTR (dtr : DescriptorTableRegister) (i : ℕ) : BitVec 8 :=
  if i < 2 then littleEndian (n := 2) dtr.limit i else littleEndian (n := 8) dtr.base (i - 2)

/-- `GetGDTR` and `GetIDTR`, when the register of the processor holds these values. -/
def getDTR (dtr : DescriptorTableRegister) : DescriptorTableRegister := makeDTR (storedDTR dtr)

namespace ReadByByte

variable {n : ℕ} {p : ℕ → BitVec 8}

/-- The bytes from one on, with the weights of a number. -/
def weighted (p : ℕ → BitVec 8) (first count : ℕ) : ℕ :=
  ∑ i ∈ Finset.range count, (p (first + i)).toNat * 256 ^ i

theorem weighted_succ (first count : ℕ) :
    weighted p first (count + 1) = weighted p (first + 1) count * 256 + (p first).toNat := by
  have hrest : ∀ i, (p (first + (i + 1))).toNat * 256 ^ (i + 1) =
      (p (first + 1 + i)).toNat * 256 ^ i * 256 := by
    intro i
    rw [pow_succ, ← mul_assoc, add_assoc, add_comm 1 i]
  rw [weighted, Finset.sum_range_succ', weighted, Finset.sum_mul, pow_zero, mul_one, add_zero]
  simp only [hrest]

theorem weighted_lt (first count : ℕ) : weighted p first count < 256 ^ count := by
  induction count generalizing first with
  | zero => exact Nat.one_pos
  | succ count ih =>
    have hbyte := (p first).isLt
    have hrest := ih (first + 1)
    rw [weighted_succ, pow_succ]
    omega

/-- A step loses no bits while there is room for another byte. -/
theorem toNat_step {result : BitVec (8 * n)} {i : ℕ} (hroom : result.toNat * 256 + 256 ≤ 2 ^ (8 * n)) :
    (step n p result i).toNat = result.toNat * 256 + (p (n - 1 - i)).toNat := by
  have hbyte := (p (n - 1 - i)).isLt
  have hshift : (result <<< 8).toNat = result.toNat <<< 8 := by
    rw [BitVec.toNat_shiftLeft, Nat.mod_eq_of_lt]
    rw [Nat.shiftLeft_eq]
    omega
  rw [step, BitVec.toNat_or, hshift, BitVec.toNat_setWidth, Nat.mod_eq_of_lt (by omega),
    ← Nat.shiftLeft_add_eq_or_of_lt hbyte, Nat.shiftLeft_eq]

/-- After some steps the last bytes have been read. -/
theorem toNat_foldl {k : ℕ} (hk : k ≤ n) :
    ((List.range k).foldl (step n p) 0#(8 * n)).toNat = weighted p (n - k) k := by
  induction k with
  | zero => simp [weighted]
  | succ k ih =>
    have hroom : weighted p (n - k) k * 256 + 256 ≤ 2 ^ (8 * n) := by
      have hlt := weighted_lt (p := p) (n - k) k
      calc weighted p (n - k) k * 256 + 256 = (weighted p (n - k) k + 1) * 256 :=
            (Nat.succ_mul ..).symm
        _ ≤ 256 ^ k * 256 := Nat.mul_le_mul_right 256 hlt
        _ = 256 ^ (k + 1) := (pow_succ 256 k).symm
        _ ≤ 256 ^ n := Nat.pow_le_pow_right (by omega) hk
        _ = 2 ^ (8 * n) := (pow_mul 2 8 n).symm
    have hfirst : n - (k + 1) + 1 = n - k := by omega
    have hbyte : n - 1 - k = n - (k + 1) := by omega
    rw [← ih (by omega)] at hroom
    rw [List.range_succ, List.foldl_append, List.foldl_cons, List.foldl_nil, toNat_step hroom,
      ih (by omega), weighted_succ, hfirst, hbyte]

end ReadByByte

theorem toNat_readByByte (n : ℕ) (p : ℕ → BitVec 8) :
    (readByByte n p).toNat = ∑ i ∈ Finset.range n, (p i).toNat * 256 ^ i := by
  rw [readByByte, ReadByByte.toNat_foldl le_rfl, ReadByByte.weighted, Nat.sub_self]
  simp only [Nat.zero_add]

/-- A value is the sum of its bytes, with the weights of a number. -/
theorem sum_littleEndian {n k : ℕ} (value : BitVec (8 * n)) :
    ∑ i ∈ Finset.range k, (littleEndian value i).toNat * 256 ^ i = value.toNat % 256 ^ k := by
  induction k with
  | zero => simp [Nat.mod_one]
  | succ k ih =>
    have hpow : 2 ^ (8 * k) = 256 ^ k := pow_mul 2 8 k
    have hbyte : (littleEndian value k).toNat = value.toNat / 256 ^ k % 256 := by
      rw [littleEndian, BitVec.extractLsb'_toNat, Nat.shiftRight_eq_div_pow, hpow]
    rw [Finset.sum_range_succ, ih, hbyte, pow_succ, Nat.mod_mul, Nat.mul_comm (256 ^ k)]

theorem readByByte_littleEndian {n : ℕ} (value : BitVec (8 * n)) :
    readByByte n (littleEndian value) = value := by
  apply BitVec.eq_of_toNat_eq
  have hpow : 2 ^ (8 * n) = 256 ^ n := pow_mul 2 8 n
  rw [toNat_readByByte, sum_littleEndian, Nat.mod_eq_of_lt (hpow ▸ value.isLt)]

/-- Only as many bytes as the type has are read. -/
theorem readByByte_congr {n : ℕ} {p p' : ℕ → BitVec 8} (h : ∀ i < n, p i = p' i) :
    readByByte n p = readByByte n p' := by
  apply BitVec.eq_of_toNat_eq
  rw [toNat_readByByte, toNat_readByByte]
  refine Finset.sum_congr rfl fun i hi => ?_
  rw [h i (Finset.mem_range.mp hi)]

theorem getDTR_eq (dtr : DescriptorTableRegister) : getDTR dtr = dtr := by
  have hlimit : readByByte 2 (storedDTR dtr) = dtr.limit :=
    (readByByte_congr fun i hi => if_pos hi).trans (readByByte_littleEndian (n := 2) dtr.limit)
  have hbase : readByByte 8 (fun i => storedDTR dtr (2 + i)) = dtr.base := by
    refine Eq.trans (readByByte_congr fun i _ => ?_) (readByByte_littleEndian (n := 8) dtr.base)
    rw [storedDTR, if_neg (by omega), Nat.add_sub_cancel_left]
  rw [getDTR, makeDTR, hlimit, hbase]

/-- **Byte-wise reads.** `ReadByByte` gives the number whose digits to base 256 are the bytes, and
so every value from its bytes; `MakeDTR` gives the limit and the base that were stored. -/
theorem readByByte_decodes (n : ℕ) (p : ℕ → BitVec 8) (value : BitVec (8 * n))
    (dtr : DescriptorTableRegister) :
    (readByByte n p).toNat = ∑ i ∈ Finset.range n, (p i).toNat * 256 ^ i ∧
      readByByte n (littleEndian value) = value ∧ getDTR dtr = dtr :=
  ⟨toNat_readByByte n p, readByByte_littleEndian value, getDTR_eq dtr⟩

end Bitnos
