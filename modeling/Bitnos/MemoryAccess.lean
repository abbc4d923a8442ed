/-
# Accesses to memory and to registers mapped into it

Words of 32 and of 64 bits, and the two places where a 64-bit value is accessed through
its halves: `Read64By32`, and the registers that only take accesses of 32 bits.
-/

import Bitnos.Math.BitMask
import Bitnos.Math.Bytes

namespace Bitnos

open Bytes (Memory)

/-- The word at an address, as a pointer to `uint32_t` reads it. -/
def read32 (mem : Memory 64) (p : BitVec 64) : BitVec 32 := Bytes.load mem p 4

/-- Memory after a word was written through a pointer to `uint32_t`. -/
def write32 (mem : Memory 64) (p : BitVec 64) (value : BitVec 32) : Memory 64 :=
  Bytes.store (n := 4) mem p value

section Words

variable {mem : Memory 64} {base p : BitVec 64} {a b : ℕ} (value : BitVec 32)

theorem read32_write32_self : read32 (write32 mem p value) p = value :=
  Bytes.load_store_self (n := 4) (by decide) value

theorem read32_write32_of_disjoint (ha : a + 4 ≤ 2 ^ 64) (hb : b + 4 ≤ 2 ^ 64)
    (hout : a + 4 ≤ b ∨ b + 4 ≤ a) :
    read32 (write32 mem (base + BitVec.ofNat 64 b) value) (base + BitVec.ofNat 64 a) =
      read32 mem (base + BitVec.ofNat 64 a) :=
  Bytes.load_store_of_disjoint (n := 4) (m := 4) ha hb hout value

theorem write32_of_offset (ha : a < 2 ^ 64) (hb : b + 4 ≤ 2 ^ 64) (hout : a < b ∨ b + 4 ≤ a) :
    write32 mem (base + BitVec.ofNat 64 b) value (base + BitVec.ofNat 64 a) =
      mem (base + BitVec.ofNat 64 a) :=
  Bytes.store_of_offset (n := 4) ha hb hout value

end Words

/-- `bitutil::Read64` -/
def read64 (mem : Memory 64) (addr : BitVec 64) : BitVec 64 := Bytes.load mem addr 8

/-- A plain store of 64 bits. -/
def write64 (mem : Memory 64) (addr value : BitVec 64) : Memory 64 :=
  Bytes.store (n := 8) mem addr value

/-- `bitutil::Read64By32` -/
def read64By32 (mem : Memory 64) (addr : BitVec 64) : BitVec 64 :=
  (read32 mem addr).setWidth 64 ||| (read32 mem (addr + 4#64)).setWidth 64

/-! ### `MemMapRegister64Access32` -/

namespace MemMapRegister64Access32

/-- `Read32`, for a register at an address. -/
def readHalf (mem : Memory 64) (addr : BitVec 64) (i : ℕ) : BitVec 64 :=
  (read32 mem (addr + BitVec.ofNat 64 (4 * i))).setWidth 64

def read (mem : Memory 64) (addr : BitVec 64) : BitVec 64 :=
  readHalf mem addr 0 ||| (readHalf mem addr 1 <<< 32)

def write (mem : Memory 64) (addr value : BitVec 64) : Memory 64 :=
  let mem := write32 mem addr ((value &&& 0xffffffff#64).setWidth 32)
  write32 mem (addr + 4#64) ((value >>> 32).setWidth 32)

end MemMapRegister64Access32

section Halves

variable {mem : Memory 64} {addr : BitVec 64}

theorem getLsbD_read64 {i : ℕ} (hi : i < 64) : (read64 mem addr).getLsbD i =
    if i < 32 then (read32 mem addr).getLsbD i else (read32 mem (addr + 4#64)).getLsbD (i - 32) := by
  split_ifs with hlow
  · exact (Bytes.getLsbD_load_of_lt (n := 4) (m := 4) hlow).symm
  · obtain ⟨j, rfl⟩ : ∃ j, i = 32 + j := Nat.exists_eq_add_of_le (Nat.le_of_not_lt hlow)
    rw [Nat.add_sub_cancel_left]
    exact (Bytes.getLsbD_load_add (n := 4) (m := 4) (by omega)).symm

theorem read32_eq_zero_iff :
    read32 mem addr = 0#32 ↔ ∀ i < 4, mem (addr + BitVec.ofNat 64 i) = 0#8 := by
  constructor
  · intro hzero i hi
    apply BitVec.eq_of_getLsbD_eq
    intro j hj
    have hdiv : (8 * i + j) / 8 = i := by omega
    have hmod : (8 * i + j) % 8 = j := by omega
    have hbit : (read32 mem addr).getLsbD (8 * i + j) = _ := Bytes.getLsbD_load (by omega)
    rw [hzero, hdiv, hmod, BitVec.getLsbD_zero] at hbit
    rw [← hbit, BitVec.getLsbD_zero]
  · intro hbytes
    apply BitVec.eq_of_getLsbD_eq
    intro j hj
    have hbit : (read32 mem addr).getLsbD j = _ := Bytes.getLsbD_load hj
    rw [hbit, hbytes _ (by omega), BitVec.getLsbD_zero, BitVec.getLsbD_zero]

/-- `Read64By32` leaves the upper half where it was read, so it must be zero. -/
theorem read64By32_eq_iff :
    read64By32 mem addr = read64 mem addr ↔ read32 mem (addr + 4#64) = 0#32 := by
  constructor
  · intro heq
    apply BitVec.eq_of_getLsbD_eq
    intro i hi
    have hbit := congrArg (fun x => x.getLsbD (32 + i)) heq
    simp only [read64By32, BitVec.getLsbD_or, BitVec.getLsbD_setWidth] at hbit
    rw [getLsbD_read64 (by omega), if_neg (by omega), Nat.add_sub_cancel_left,
      BitVec.getLsbD_of_ge _ _ (by omega), BitVec.getLsbD_of_ge _ _ (by omega), Bool.and_false,
      Bool.or_false] at hbit
    rw [← hbit, BitVec.getLsbD_zero]
  · intro hzero
    apply BitVec.eq_of_getLsbD_eq
    intro i hi
    rw [getLsbD_read64 hi, read64By32, hzero, BitVec.getLsbD_or, BitVec.getLsbD_setWidth,
      BitVec.getLsbD_setWidth, BitVec.getLsbD_zero, decide_eq_true hi, Bool.true_and, Bool.and_false,
      Bool.or_false]
    split_ifs with hlow
    · rfl
    · rw [BitVec.getLsbD_of_ge _ _ (Nat.le_of_not_lt hlow), BitVec.getLsbD_zero]

namespace MemMapRegister64Access32

/-- A register is read as it lies in memory. -/
theorem read_eq_read64 : read mem addr = read64 mem addr := by
  apply BitVec.eq_of_getLsbD_eq
  intro i hi
  rw [getLsbD_read64 hi, read, readHalf, readHalf, Nat.mul_zero, BitVec.add_zero, BitVec.getLsbD_or,
    BitVec.getLsbD_shiftLeft, BitVec.getLsbD_setWidth, BitVec.getLsbD_setWidth]
  by_cases hlow : i < 32
  · simp [hlow, hi]
  · have hhigh : i - 32 < 64 := by omega
    have hnone : (read32 mem addr).getLsbD i = false :=
      BitVec.getLsbD_of_ge _ _ (Nat.le_of_not_lt hlow)
    simp [hlow, hi, hhigh, hnone]

/-- A register is written as it is stored to memory. -/
theorem write_eq_write64 (value : BitVec 64) : write mem addr value = write64 mem addr value := by
  have hmask : 0xffffffff#64 = BitMask.low 64 32 := rfl
  have hlower : (value &&& 0xffffffff#64).setWidth 32 = value.extractLsb' 0 32 := by
    rw [hmask, ← BitVec.ushiftRight_zero value]
    exact BitMask.field_eq_extractLsb' value 0
  have hupper : (value >>> 32).setWidth 32 = value.extractLsb' 32 32 := by
    apply BitVec.eq_of_getLsbD_eq
    intro i hi
    rw [BitVec.getLsbD_setWidth, BitVec.getLsbD_ushiftRight, BitVec.getLsbD_extractLsb']
  rw [write, hlower, hupper]
  exact (Bytes.store_eq_store_store (n := 4) (m := 4) (by decide) value).symm

end MemMapRegister64Access32

theorem read64_write64_self (value : BitVec 64) : read64 (write64 mem addr value) addr = value :=
  Bytes.load_store_self (n := 8) (by decide) value

end Halves

/-- **Split accesses.** Reading through the halves gives what a plain read gives exactly when the
upper half is zero; the registers are read and written as plain memory is, whatever the value. -/
theorem split_accesses_iff (mem : Memory 64) (addr : BitVec 64) :
    (read64By32 mem addr = read64 mem addr ∧
        ∀ (before : Memory 64) (register value : BitVec 64),
          MemMapRegister64Access32.read
              (MemMapRegister64Access32.write before register value) register = value ∧
            MemMapRegister64Access32.write before register value =
              write64 before register value) ↔
      ∀ i < 4, mem (addr + 4#64 + BitVec.ofNat 64 i) = 0#8 := by
  rw [← read32_eq_zero_iff, ← read64By32_eq_iff]
  refine and_iff_left fun before register value => ?_
  have hwrite : MemMapRegister64Access32.write before register value =
      write64 before register value := MemMapRegister64Access32.write_eq_write64 value
  refine ⟨?_, hwrite⟩
  rw [hwrite, MemMapRegister64Access32.read_eq_read64, read64_write64_self]

/-- 4 GiB in memory is read as one. -/
theorem read64By32_fourGiB :
    let mem : Memory 64 := write64 (fun _ => 0#8) 0x1000#64 0x100000000#64
    read64By32 mem 0x1000#64 = 1#64 ∧ read64 mem 0x1000#64 = 0x100000000#64 := by
  decide +kernel

end Bitnos
