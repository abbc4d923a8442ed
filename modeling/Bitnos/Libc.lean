/-
# The memory functions of the C library

`memcpy` and `memset` go through memory byte by byte, upwards. A copy into memory that begins
inside its source reads bytes it has written itself, so the bytes before the destination are
repeated.
-/

import Bitnos.Math.Bytes
import Mathlib.Logic.Function.Iterate

namespace Bitnos

open Bytes (Memory)

/-! ### `memcpy` -/

/-- The pointers of `memcpy` and memory. -/
structure Memcpy where
  d : BitVec 64
  s : BitVec 64
  mem : Memory 64

/-- `*d++ = *s++` -/
def Memcpy.step (c : Memcpy) : Memcpy where
  d := c.d + 1#64
  s := c.s + 1#64
  mem := Function.update c.mem c.d (c.mem c.s)

def memcpy (mem : Memory 64) (dest src n : BitVec 64) : Memory 64 :=
  (Memcpy.step^[n.toNat] ⟨dest, src, mem⟩).mem

section Memcpy

variable {mem : Memory 64} {dest src : BitVec 64} {i : ℕ}

theorem Memcpy.pointers_iterate (i : ℕ) : (step^[i] ⟨dest, src, mem⟩).d = dest + BitVec.ofNat 64 i ∧
    (step^[i] ⟨dest, src, mem⟩).s = src + BitVec.ofNat 64 i := by
  induction i with
  | zero => exact ⟨(BitVec.add_zero dest).symm, (BitVec.add_zero src).symm⟩
  | succ i ih =>
    rw [Function.iterate_succ_apply', BitVec.ofNat_add, ← BitVec.add_assoc, ← BitVec.add_assoc,
      ← ih.1, ← ih.2]
    exact ⟨rfl, rfl⟩

/-- Memory after the first bytes have been copied. The source byte for one at a distance comes from
the part of the source before the destination. -/
def copied (mem : Memory 64) (dest src : BitVec 64) (i : ℕ) : Memory 64 := fun p =>
  if (p - dest).toNat < i then
    mem (src + BitVec.ofNat 64 ((p - dest).toNat % (dest - src).toNat))
  else
    mem p

/-- The next source byte, which may have been written already. -/
theorem copied_source (hi : i < 2 ^ 64) : copied mem dest src i (src + BitVec.ofNat 64 i) =
    mem (src + BitVec.ofNat 64 (i % (dest - src).toNat)) := by
  have hgap := (dest - src).isLt
  have hdist : (src + BitVec.ofNat 64 i - dest).toNat =
      (i + (2 ^ 64 - (dest - src).toNat)) % 2 ^ 64 := by
    -- how far behind the beginning of the destination the source byte lies
    have hsub : src + BitVec.ofNat 64 i - dest = BitVec.ofNat 64 i - (dest - src) := by grind
    rw [hsub, BitVec.toNat_sub, BitVec.toNat_ofNat, Nat.mod_eq_of_lt hi, Nat.add_comm]
  rw [copied, hdist]
  -- either it was written before, one distance earlier, or it is still the original
  by_cases hover : 0 < (dest - src).toNat ∧ (dest - src).toNat ≤ i
  · have hback : (i + (2 ^ 64 - (dest - src).toNat)) % 2 ^ 64 = i - (dest - src).toNat := by omega
    rw [hback, if_pos (by omega), ← Nat.mod_eq_sub_mod hover.2]
  · rw [if_neg (by omega)]
    have hsmall : i % (dest - src).toNat = i := by
      rcases Nat.eq_zero_or_pos (dest - src).toNat with hzero | hpos
      · rw [hzero, Nat.mod_zero]
      · exact Nat.mod_eq_of_lt (by omega)
    rw [hsmall]

theorem Memcpy.mem_iterate (hi : i ≤ 2 ^ 64) :
    (step^[i] ⟨dest, src, mem⟩).mem = copied mem dest src i := by
  induction i with
  | zero => rfl
  | succ i ih =>
    have hlt : i < 2 ^ 64 := hi
    rw [Function.iterate_succ_apply', step, (pointers_iterate i).1, (pointers_iterate i).2,
      ih hlt.le, copied_source hlt]
    funext p
    have hhere := @Bytes.eq_add_iff 64 dest p i hlt
    dsimp only
    rw [Function.update_apply, copied, copied]
    by_cases hp : (p - dest).toNat = i
    · rw [if_pos (hhere.mpr hp), hp, if_pos (Nat.lt_succ_self i)]
    · rw [if_neg (mt hhere.mp hp)]
      have hsame : (p - dest).toNat < i + 1 ↔ (p - dest).toNat < i := by omega
      simp only [hsame]

theorem memcpy_eq (mem : Memory 64) (dest src n : BitVec 64) :
    memcpy mem dest src n = copied mem dest src n.toNat := Memcpy.mem_iterate n.isLt.le

end Memcpy

/-! ### `memset` -/

/-- The pointer of `memset` and memory. -/
structure Memset where
  s : BitVec 64
  mem : Memory 64

/-- `*s_++ = c` -/
def Memset.step (c : BitVec 32) (m : Memset) : Memset where
  s := m.s + 1#64
  mem := Function.update m.mem m.s (c.setWidth 8)

def memset (mem : Memory 64) (s : BitVec 64) (c : BitVec 32) (n : BitVec 64) : Memory 64 :=
  ((Memset.step c)^[n.toNat] ⟨s, mem⟩).mem

section Memset

variable {mem : Memory 64} {s : BitVec 64} {c : BitVec 32} {i : ℕ}

theorem Memset.pointer_iterate (i : ℕ) : ((step c)^[i] ⟨s, mem⟩).s = s + BitVec.ofNat 64 i := by
  induction i with
  | zero => exact (BitVec.add_zero s).symm
  | succ i ih =>
    rw [Function.iterate_succ_apply', BitVec.ofNat_add, ← BitVec.add_assoc, ← ih]
    rfl

theorem Memset.mem_iterate (hi : i ≤ 2 ^ 64) (p : BitVec 64) :
    ((step c)^[i] ⟨s, mem⟩).mem p = if (p - s).toNat < i then c.setWidth 8 else mem p := by
  induction i with
  | zero => rfl
  | succ i ih =>
    have hlt : i < 2 ^ 64 := hi
    have hhere := @Bytes.eq_add_iff 64 s p i hlt
    rw [Function.iterate_succ_apply', step, pointer_iterate]
    dsimp only
    rw [Function.update_apply, ih hlt.le]
    by_cases hp : (p - s).toNat = i
    · rw [if_pos (hhere.mpr hp), if_pos (by omega)]
    · have hsame : (p - s).toNat < i + 1 ↔ (p - s).toNat < i := by omega
      rw [if_neg (mt hhere.mp hp)]
      simp only [hsame]

theorem memset_apply (mem : Memory 64) (s : BitVec 64) (c : BitVec 32) (n p : BitVec 64) :
    memset mem s c n p = if (p - s).toNat < n.toNat then c.setWidth 8 else mem p :=
  Memset.mem_iterate n.isLt.le p

end Memset

/-- **Copying.** Nothing outside the destination changes, and what is copied is the source, for every
content of memory, exactly when the destination does not begin inside of it; if it does, the copy
repeats the bytes in front of the destination. -/
theorem memcpy_copies_iff (dest src n : BitVec 64) :
    (∀ (mem : Memory 64) (p : BitVec 64), n.toNat ≤ (p - dest).toNat →
      memcpy mem dest src n p = mem p) ∧
      (∀ (mem : Memory 64), ∀ k < n.toNat, memcpy mem dest src n (dest + BitVec.ofNat 64 k) =
        mem (src + BitVec.ofNat 64 (k % (dest - src).toNat))) ∧
      ((∀ (mem : Memory 64), ∀ k < n.toNat, memcpy mem dest src n (dest + BitVec.ofNat 64 k) =
          mem (src + BitVec.ofNat 64 k)) ↔
        dest = src ∨ n.toNat ≤ (dest - src).toNat) := by
  have hn := n.isLt
  have hbyte : ∀ (mem : Memory 64), ∀ k < n.toNat, memcpy mem dest src n (dest + BitVec.ofNat 64 k) =
      mem (src + BitVec.ofNat 64 (k % (dest - src).toNat)) := by
    intro mem k hk
    rw [memcpy_eq, copied, Bytes.toNat_add_sub hn.le hk, if_pos hk]
  refine ⟨fun mem p hp => ?_, hbyte, ?_, ?_⟩
  · rw [memcpy_eq, copied, if_neg (Nat.not_lt.mpr hp)]
  · intro hcopies
    by_contra hinside
    -- the destination begins inside the source
    obtain ⟨hne, hlt⟩ := not_or.mp hinside
    rw [not_le] at hlt
    have hpos : 0 < (dest - src).toNat := by
      rw [Nat.pos_iff_ne_zero]
      intro hzero
      have hsame := Bytes.add_distance src dest
      rw [hzero, BitVec.add_zero] at hsame
      exact hne hsame.symm
    -- the byte at the distance of the destination is the first of the source, not the one there
    have hsecond := hcopies (fun p => if p = src then 1#8 else 0#8) _ hlt
    rw [hbyte _ _ hlt, Nat.mod_self, BitVec.add_zero, if_pos rfl, Bytes.add_distance,
      if_neg hne] at hsecond
    exact absurd hsecond (by decide)
  · rintro (rfl | hle) mem k hk
    · rw [hbyte mem k hk, BitVec.sub_self]
      exact congrArg (fun i => mem (dest + BitVec.ofNat 64 i)) (Nat.mod_zero k)
    · rw [hbyte mem k hk, Nat.mod_eq_of_lt (hk.trans_le hle)]

end Bitnos
