/-
# Loops that step through a word

A loop counts from zero in steps of a stride as long as it is below a size, with numbers of
a fixed width that wrap around. It ends exactly when a multiple of the stride comes to lie
above the size, which the greatest common divisor of stride and width decides.
-/

import Mathlib.Data.Int.GCD
import Mathlib.Data.List.Basic

namespace Stride

/-! ### Multiples -/

/-- The greatest multiple of a stride, up to a modulus, falls short of it by their common divisor. -/
theorem exists_le_mul_mod_iff {m size stride : ℕ} (hm : 0 < m) :
    (∃ k, size ≤ k * stride % m) ↔ size ≤ m - Nat.gcd stride m := by
  have hdvd : Nat.gcd stride m ∣ m := Nat.gcd_dvd_right stride m
  have hle := Nat.le_of_dvd hm hdvd
  constructor
  · rintro ⟨k, hk⟩
    have hlt := Nat.mod_lt (k * stride) hm
    -- no multiple comes nearer to `m` than the common divisor
    have hmul : Nat.gcd stride m ∣ k * stride % m :=
      (Nat.dvd_mod_iff hdvd).mpr ((Nat.gcd_dvd_left stride m).mul_left k)
    have hfar : k * stride % m + Nat.gcd stride m ≤ m :=
      Nat.le_of_lt_add_of_dvd (by omega) (Nat.dvd_add hmul (Nat.dvd_refl _)) hdvd
    omega
  · intro hsize
    rcases hle.eq_or_lt with heq | hlt
    · exact ⟨0, by omega⟩
    · obtain ⟨j, -, hj⟩ := Nat.exists_mul_mod_eq_gcd hlt
      obtain ⟨q, hq⟩ := hdvd
      -- as many steps to the common divisor as bring it up to the last multiple
      refine ⟨(q - 1) * j, ?_⟩
      have hlast : (q - 1) * Nat.gcd stride m = m - Nat.gcd stride m := by
        rw [Nat.sub_mul, Nat.one_mul, Nat.mul_comm q, ← hq]
      have hpos : 0 < Nat.gcd stride m := Nat.gcd_pos_of_pos_right stride hm
      have hmod : (q - 1) * j * stride % m = m - Nat.gcd stride m := by
        calc (q - 1) * j * stride % m = (q - 1) * (stride * j % m) % m := by
              rw [Nat.mul_mod_mod, Nat.mul_assoc, Nat.mul_comm j]
          _ = m - Nat.gcd stride m := by rw [hj, hlast, Nat.mod_eq_of_lt (by omega)]
      omega

/-! ### The loop -/

variable {w : ℕ}

/-- The numbers the loop passes. -/
def visits (size stride : BitVec w) : ℕ → BitVec w → Option (List (BitVec w))
  | 0, _ => none
  | fuel + 1, it =>
    if it < size then (visits size stride fuel (it + stride)).map (it :: ·) else some []

variable {size stride it : BitVec w} {fuel k : ℕ}

theorem add_mul_succ : it + stride + BitVec.ofNat w (k * stride.toNat) =
    it + BitVec.ofNat w ((k + 1) * stride.toNat) := by
  rw [Nat.succ_mul, Nat.add_comm, BitVec.ofNat_add, BitVec.ofNat_toNat, BitVec.setWidth_eq,
    BitVec.add_assoc]

/-- A loop that ends has come to a number that is not below the size. -/
theorem exists_of_visits {its : List (BitVec w)} (h : visits size stride fuel it = some its) :
    ∃ k, size ≤ it + BitVec.ofNat w (k * stride.toNat) := by
  induction fuel generalizing it its with
  | zero => cases h
  | succ fuel ih =>
    rw [visits] at h
    split_ifs at h with hlt
    · obtain ⟨rest, hrest, -⟩ := Option.map_eq_some_iff.mp h
      obtain ⟨k, hk⟩ := ih hrest
      rw [add_mul_succ] at hk
      exact ⟨k + 1, hk⟩
    · refine ⟨0, ?_⟩
      rw [Nat.zero_mul, BitVec.add_zero]
      exact BitVec.not_lt.mp hlt

theorem exists_visits_of_le (h : size ≤ it + BitVec.ofNat w (k * stride.toNat)) :
    ∃ its, visits size stride (k + 1) it = some its := by
  induction k generalizing it with
  | zero =>
    rw [Nat.zero_mul, BitVec.add_zero] at h
    exact ⟨[], if_neg (BitVec.not_lt.mpr h)⟩
  | succ k ih =>
    rw [← add_mul_succ] at h
    obtain ⟨its, hits⟩ := ih h
    rw [visits, hits]
    split_ifs
    · exact ⟨it :: its, rfl⟩
    · exact ⟨[], rfl⟩

/-- **The loop ends** exactly when the size is not beyond the last multiple of the stride. -/
theorem exists_visits_iff : (∃ fuel its, visits size stride fuel 0#w = some its) ↔
    size.toNat ≤ 2 ^ w - Nat.gcd stride.toNat (2 ^ w) := by
  have hvalue (k : ℕ) : size ≤ 0#w + BitVec.ofNat w (k * stride.toNat) ↔
      size.toNat ≤ k * stride.toNat % 2 ^ w := by
    rw [BitVec.zero_add, BitVec.le_def, BitVec.toNat_ofNat]
  rw [← exists_le_mul_mod_iff (Nat.two_pow_pos w)]
  constructor
  · rintro ⟨fuel, its, hvisits⟩
    obtain ⟨k, hk⟩ := exists_of_visits hvisits
    exact ⟨k, (hvalue k).mp hk⟩
  · rintro ⟨k, hk⟩
    obtain ⟨its, hits⟩ := exists_visits_of_le ((hvalue k).mpr hk)
    exact ⟨k + 1, its, hits⟩

/-- With room for one more stride behind the size nothing wraps around: the loop passes the multiples
below the size. -/
theorem visits_of_room {n : ℕ} (hroom : size.toNat + stride.toNat ≤ 2 ^ w)
    (hlast : size.toNat ≤ n * stride.toNat) (hbefore : ∀ k < n, k * stride.toNat < size.toNat)
    (hfuel : n < fuel) : visits size stride fuel 0#w =
      some ((List.range n).map fun k => BitVec.ofNat w (k * stride.toNat)) := by
  -- the last number is less than one stride beyond the size
  have hbound : ∀ k ≤ n, k * stride.toNat < 2 ^ w := by
    intro k hk
    cases k with
    | zero =>
      rw [Nat.zero_mul]
      exact Nat.two_pow_pos w
    | succ k =>
      have hlt := hbefore k hk
      rw [Nat.succ_mul]
      omega
  have hvalue : ∀ k ≤ n, (BitVec.ofNat w (k * stride.toNat)).toNat = k * stride.toNat := by
    intro k hk
    rw [BitVec.toNat_ofNat, Nat.mod_eq_of_lt (hbound k hk)]
  -- induction on the rounds still to come
  have hfrom (j : ℕ) : ∀ k fuel, k + j = n → j < fuel →
      visits size stride fuel (BitVec.ofNat w (k * stride.toNat)) =
        some ((List.range' k j).map fun k => BitVec.ofNat w (k * stride.toNat)) := by
    induction j with
    | zero =>
      intro k fuel hk hfuel
      obtain ⟨fuel, rfl⟩ : ∃ f, fuel = f + 1 := ⟨fuel - 1, by omega⟩
      obtain rfl : k = n := hk
      rw [visits, if_neg]
      · rfl
      · rw [BitVec.lt_def, hvalue k le_rfl]
        exact Nat.not_lt.mpr hlast
    | succ j ih =>
      intro k fuel hk hfuel
      obtain ⟨fuel, rfl⟩ : ∃ f, fuel = f + 1 := ⟨fuel - 1, by omega⟩
      have hnext : BitVec.ofNat w (k * stride.toNat) + stride =
          BitVec.ofNat w ((k + 1) * stride.toNat) := by
        rw [Nat.succ_mul, BitVec.ofNat_add, BitVec.ofNat_toNat, BitVec.setWidth_eq]
      rw [visits, if_pos, hnext, ih (k + 1) fuel (by omega) (by omega)]
      · rfl
      · rw [BitVec.lt_def, hvalue k (by omega)]
        exact hbefore k (by omega)
  have hall := hfrom n 0 fuel (Nat.zero_add n) hfuel
  rw [Nat.zero_mul, ← List.range_eq_range'] at hall
  exact hall

end Stride
