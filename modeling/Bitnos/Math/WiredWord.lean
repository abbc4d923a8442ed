/-
# Words with hardwired bits

A register of a device often keeps only some of the bits written to it; the others
are hardwired. What such a register holds after a write is a function of the mask of
the hardwired bits, of what it held before and of what is written. Two writes are the
last one, and writing back an earlier value restores it.

A word that shows a run of zeros under a run of ones has its lowest set bit at the
border, which is how a driver reads off how many bits are hardwired.
-/

import Mathlib.Data.Nat.Notation

namespace WiredWord

variable {w : ℕ} {wired old new : BitVec w}

/-- What a word holds after a write: the hardwired bits stay, the others are written. -/
def write (wired old new : BitVec w) : BitVec w := (old &&& wired) ||| (new &&& ~~~wired)

theorem getLsbD_write (i : ℕ) :
    (write wired old new).getLsbD i = if wired.getLsbD i then old.getLsbD i else new.getLsbD i := by
  by_cases hi : i < w
  · cases hwired : wired.getLsbD i <;>
      simp [write, hi, hwired, -BitVec.getLsbD_eq_getElem]
  · have hge : w ≤ i := Nat.le_of_not_lt hi
    simp only [BitVec.getLsbD_of_ge _ i hge, ite_self]

/-- The last write counts: the hardwired bits do not change on the way. -/
@[simp] theorem write_write (mid : BitVec w) : write wired (write wired old mid) new =
    write wired old new := by
  apply BitVec.eq_of_getLsbD_eq
  intro i hi
  simp only [getLsbD_write]
  by_cases hwired : wired.getLsbD i <;> simp [hwired]

/-- Writing what is there changes nothing. -/
@[simp] theorem write_self : write wired old old = old := by
  apply BitVec.eq_of_getLsbD_eq
  intro i hi
  rw [getLsbD_write, ite_self]

/-! ### The lowest set bit -/

/-- The lowest set bit is the one with only zeros below. -/
theorem toNat_ctz_eq {x : BitVec w} {k : ℕ} (hset : x.getLsbD k = true)
    (hbelow : ∀ i < k, x.getLsbD i = false) : x.ctz.toNat = k := by
  have hne : x ≠ 0#w := by
    rintro rfl
    simp at hset
  apply Nat.le_antisymm
  · -- a set bit cannot lie below the lowest one
    refine Nat.le_of_not_lt fun hlt => ?_
    rw [BitVec.getLsbD_false_of_lt_ctz hlt] at hset
    exact Bool.false_ne_true hset
  · refine Nat.le_of_not_lt fun hlt => ?_
    have hfalse := hbelow x.ctz.toNat hlt
    rw [BitVec.getLsbD_true_ctz_of_ne_zero hne] at hfalse
    exact Bool.false_ne_true hfalse.symm

end WiredWord
