/-
# Numerals

A number is written with its most significant digit first, a zero as one digit, and with
zeros in front up to a given width. Read back as a number, the digits give the number.
-/

import Mathlib.Data.Nat.Digits.Lemmas

namespace Numeral

/-- The digits of a number in a base. -/
def digits (b n : ℕ) : List ℕ := if n = 0 then [0] else (Nat.digits b n).reverse

/-- The digits with zeros in front. -/
def padded (b width n : ℕ) : List ℕ :=
  List.replicate (width - (digits b n).length) 0 ++ digits b n

/-- The number some digits stand for. -/
def value (b : ℕ) (ds : List ℕ) : ℕ := ds.foldl (fun v d => b * v + d) 0

variable {b width n d : ℕ}

theorem value_eq_ofDigits (ds : List ℕ) : value b ds = Nat.ofDigits b ds.reverse := by
  induction ds using List.reverseRecOn with
  | nil => rfl
  | append_singleton ds d ih =>
    rw [value, List.foldl_append, List.reverse_append, List.reverse_singleton,
      List.singleton_append, Nat.ofDigits_cons, ← ih, Nat.add_comm]
    rfl

theorem value_digits : value b (digits b n) = n := by
  unfold digits
  split_ifs with hzero
  · rw [hzero]
    exact Nat.mul_zero b
  · rw [value_eq_ofDigits, List.reverse_reverse, Nat.ofDigits_digits]

/-- Zeros in front do not count. -/
theorem value_replicate_append (k : ℕ) (ds : List ℕ) :
    value b (List.replicate k 0 ++ ds) = value b ds := by
  induction k with
  | zero => rfl
  | succ k ih => rw [← ih, List.replicate_succ, List.cons_append, value, List.foldl_cons,
      Nat.mul_zero, Nat.add_zero, value]

theorem value_padded : value b (padded b width n) = n := by
  rw [padded, value_replicate_append, value_digits]

theorem length_digits_le (hb : 1 < b) (hwidth : 0 < width) (hn : n < b ^ width) :
    (digits b n).length ≤ width := by
  unfold digits
  split_ifs
  · exact hwidth
  · rw [List.length_reverse]
    exact (Nat.digits_length_le_iff hb n).mpr hn

/-- A number that fits is written with exactly the width. -/
theorem length_padded (hb : 1 < b) (hwidth : 0 < width) (hn : n < b ^ width) :
    (padded b width n).length = width := by
  rw [padded, List.length_append, List.length_replicate,
    Nat.sub_add_cancel (length_digits_le hb hwidth hn)]

theorem lt_of_mem_padded (hb : 1 < b) (hd : d ∈ padded b width n) : d < b := by
  have hzero : 0 < b := Nat.zero_lt_of_lt hb
  rcases List.mem_append.mp hd with hpad | hdigit
  · exact (List.eq_of_mem_replicate hpad).symm ▸ hzero
  · unfold digits at hdigit
    split_ifs at hdigit
    · exact (List.mem_singleton.mp hdigit).symm ▸ hzero
    · exact Nat.digits_lt_base hb (List.mem_reverse.mp hdigit)

end Numeral
