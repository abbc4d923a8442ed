/-
# The interrupt descriptor table

`SetIDTEntry` writes an entry of sixteen bytes in three words and leaves the fourth
alone; `print_desc_table` takes the words apart again. The offset of a handler is
split over all three words, with the selector and the attributes in between.
-/

import Bitnos.MemoryAccess
import Bitnos.Queue

namespace Bitnos

open Bytes (Memory)

structure DescriptorTableRegister where
  limit : BitVec 16
  base : BitVec 64
  deriving DecidableEq

def makeIDTAttr (p dpl type ist : BitVec 8) : BitVec 16 :=
  (p.setWidth 16 <<< 15) ||| (dpl.setWidth 16 <<< 13) ||| (type.setWidth 16 <<< 8) |||
    ist.setWidth 16

/-- `p[0]` -/
def idtWord0 (offset : BitVec 64) (selector : BitVec 16) : BitVec 32 :=
  ((selector.setWidth 32 <<< 16).setWidth 64 ||| (offset &&& 0xffff#64)).setWidth 32

/-- `p[1]` -/
def idtWord1 (offset : BitVec 64) (attr : BitVec 16) : BitVec 32 :=
  ((offset &&& 0xffff0000#64) ||| attr.setWidth 64).setWidth 32

/-- `p[2]` -/
def idtWord2 (offset : BitVec 64) : BitVec 32 := (offset >>> 32).setWidth 32

def setIDTEntry (idtr : DescriptorTableRegister) (index offset : BitVec 64)
    (attr selector : BitVec 16) (mem : Memory 64) : Error × Memory 64 :=
  -- both sides are numbers of type size_t, and the left one wraps around
  if 16#64 * index + 15#64 > idtr.limit.setWidth 64 then
    (.indexOutOfRange, mem)
  else
    -- a pointer to 32-bit words, moved by `4 * index` of them
    let p := idtr.base + 4#64 * (4#64 * index)
    let mem := write32 mem p (idtWord0 offset selector)
    let mem := write32 mem (p + 4#64) (idtWord1 offset attr)
    let mem := write32 mem (p + 8#64) (idtWord2 offset)
    (.success, mem)

/-- What `print_desc_table` prints about an entry. -/
structure IDTEntry where
  selector : BitVec 16
  offset : BitVec 64
  p : BitVec 8
  dpl : BitVec 8
  d : BitVec 8
  type : BitVec 8
  ist : BitVec 8
  deriving DecidableEq

/-- The decoding of the three words. -/
def decodeIDTEntry (p0 p1 p2 : BitVec 32) : IDTEntry where
  selector := (p0 >>> 16).setWidth 16
  offset := (p2.setWidth 64 <<< 32) ||| (p1 &&& 0xffff0000#32).setWidth 64 |||
    (p0 &&& 0x0000ffff#32).setWidth 64
  p := ((p1 >>> 15) &&& 1#32).setWidth 8
  dpl := ((p1 >>> 13) &&& 3#32).setWidth 8
  d := ((p1 >>> 11) &&& 1#32).setWidth 8
  type := ((p1 >>> 8) &&& 0x1f#32).setWidth 8
  ist := (p1 &&& 7#32).setWidth 8

/-- The entry with the given number, as `print_desc_table` reads it. -/
def readIDTEntry (idtr : DescriptorTableRegister) (i : BitVec 32) (mem : Memory 64) : IDTEntry :=
  let p := idtr.base + (i <<< 4).setWidth 64
  decodeIDTEntry (read32 mem p) (read32 mem (p + 4#64)) (read32 mem (p + 8#64))

/-! ### Bits -/

section Bits

variable {p dpl type ist : BitVec 8} {offset : BitVec 64} {attr selector : BitVec 16}

/-- The fields of the attributes do not overlap. -/
theorem getLsbD_makeIDTAttr (hdpl : dpl.toNat < 2 ^ 2) (htype : type.toNat < 2 ^ 4)
    (hist : ist.toNat < 2 ^ 3) (j : ℕ) :
    (makeIDTAttr p dpl type ist).getLsbD j =
      if j < 8 then ist.getLsbD j
      else if j < 13 then type.getLsbD (j - 8)
      else if j < 15 then dpl.getLsbD (j - 13)
      else decide (j < 16) && p.getLsbD (j - 15) := by
  have hdpl' : ∀ j, 2 ≤ j → dpl.getLsbD j = false := fun _ => BitMask.getLsbD_of_lt hdpl
  have htype' : ∀ j, 4 ≤ j → type.getLsbD j = false := fun _ => BitMask.getLsbD_of_lt htype
  have hist' : ∀ j, 3 ≤ j → ist.getLsbD j = false := fun _ => BitMask.getLsbD_of_lt hist
  simp only [makeIDTAttr, BitVec.getLsbD_or, BitVec.getLsbD_shiftLeft, BitVec.getLsbD_setWidth]
  grind

theorem getLsbD_idtWord0 (j : ℕ) : (idtWord0 offset selector).getLsbD j =
    if j < 16 then offset.getLsbD j else selector.getLsbD (j - 16) := by
  have hmask : 0xffff#64 = BitMask.low 64 16 := rfl
  rw [idtWord0, hmask, BitVec.getLsbD_setWidth, BitVec.getLsbD_or, BitMask.getLsbD_and_low]
  simp only [BitVec.getLsbD_setWidth, BitVec.getLsbD_shiftLeft]
  grind

theorem getLsbD_idtWord1 (j : ℕ) : (idtWord1 offset attr).getLsbD j =
    if j < 16 then attr.getLsbD j else decide (j < 32) && offset.getLsbD j := by
  have hmask : 0xffff0000#64 = BitMask.low 64 16 <<< 16 := rfl
  rw [idtWord1, hmask, BitVec.getLsbD_setWidth, BitVec.getLsbD_or,
    BitMask.getLsbD_and_low_shiftLeft]
  simp only [BitVec.getLsbD_setWidth]
  grind

theorem getLsbD_idtWord2 (j : ℕ) :
    (idtWord2 offset).getLsbD j = (decide (j < 32) && offset.getLsbD (32 + j)) := by
  rw [idtWord2, BitVec.getLsbD_setWidth, BitVec.getLsbD_ushiftRight]

/-- A field of the attributes is found in the second word. -/
theorem field_idtWord1 {field : BitVec 8} {s k : ℕ} (hs : s + k ≤ 16) (hfield : field.toNat < 2 ^ k)
    (hattr : ∀ j < k, attr.getLsbD (s + j) = field.getLsbD j) :
    ((idtWord1 offset attr >>> s) &&& BitMask.low 32 k).setWidth 8 = field := by
  apply BitVec.eq_of_getLsbD_eq
  intro j hj
  rw [BitMask.getLsbD_field, decide_eq_true hj, Bool.true_and]
  by_cases hk : j < k
  · rw [decide_eq_true hk, Bool.true_and, getLsbD_idtWord1, if_pos (by omega), hattr j hk]
  · rw [decide_eq_false hk, Bool.false_and, BitMask.getLsbD_of_lt hfield (Nat.le_of_not_lt hk)]

theorem selector_idtWord0 : (idtWord0 offset selector >>> 16).setWidth 16 = selector := by
  apply BitVec.eq_of_getLsbD_eq
  intro j hj
  rw [BitVec.getLsbD_setWidth, BitVec.getLsbD_ushiftRight, getLsbD_idtWord0, if_neg (by omega),
    Nat.add_sub_cancel_left, decide_eq_true hj, Bool.true_and]

/-- The three pieces of the offset make the offset. -/
theorem offset_words :
    ((idtWord2 offset).setWidth 64 <<< 32) |||
        (idtWord1 offset attr &&& 0xffff0000#32).setWidth 64 |||
        (idtWord0 offset selector &&& 0x0000ffff#32).setWidth 64 = offset := by
  have hhigh : 0xffff0000#32 = BitMask.low 32 16 <<< 16 := rfl
  have hlow : 0x0000ffff#32 = BitMask.low 32 16 := rfl
  apply BitVec.eq_of_getLsbD_eq
  intro j hj
  rw [hhigh, hlow]
  simp only [BitVec.getLsbD_or, BitVec.getLsbD_setWidth, BitVec.getLsbD_shiftLeft,
    BitMask.getLsbD_and_low_shiftLeft, BitMask.getLsbD_and_low, getLsbD_idtWord0, getLsbD_idtWord1,
    getLsbD_idtWord2]
  grind

end Bits

/-- A call of `SetIDTEntry` with attributes made by `MakeIDTAttr` from values that fit. -/
structure IDTCall where
  index : BitVec 64
  offset : BitVec 64
  selector : BitVec 16
  p : BitVec 8
  dpl : BitVec 8
  type : BitVec 8
  ist : BitVec 8
  p_le : p.toNat ≤ 1
  dpl_le : dpl.toNat ≤ 3
  type_le : type.toNat ≤ 15
  ist_le : ist.toNat ≤ 7

namespace IDTCall

def attr (call : IDTCall) : BitVec 16 := makeIDTAttr call.p call.dpl call.type call.ist

/-- What should be printed about the entry afterwards. -/
def entry (call : IDTCall) : IDTEntry where
  selector := call.selector
  offset := call.offset
  p := call.p
  dpl := call.dpl
  d := (call.type >>> 3) &&& 1#8
  type := call.type
  ist := call.ist

theorem getLsbD_attr (call : IDTCall) (j : ℕ) : call.attr.getLsbD j =
    if j < 8 then call.ist.getLsbD j
    else if j < 13 then call.type.getLsbD (j - 8)
    else if j < 15 then call.dpl.getLsbD (j - 13)
    else decide (j < 16) && call.p.getLsbD (j - 15) :=
  getLsbD_makeIDTAttr (Nat.lt_succ_of_le call.dpl_le) (Nat.lt_succ_of_le call.type_le)
    (Nat.lt_succ_of_le call.ist_le) j

/-- The words of a call are taken apart into what it was given. -/
theorem decode_words (call : IDTCall) :
    decodeIDTEntry (idtWord0 call.offset call.selector) (idtWord1 call.offset call.attr)
      (idtWord2 call.offset) = call.entry := by
  have hattr := call.getLsbD_attr
  have hone : 1#32 = BitMask.low 32 1 := rfl
  have hthree : 3#32 = BitMask.low 32 2 := rfl
  have hseven : 7#32 = BitMask.low 32 3 := rfl
  have hfive : 0x1f#32 = BitMask.low 32 5 := rfl
  have hflag : ((call.type >>> 3) &&& 1#8).toNat < 2 ^ 1 := BitMask.toNat_and_low_lt (k := 1) _
  rw [decodeIDTEntry, entry, IDTEntry.mk.injEq]
  refine ⟨selector_idtWord0, offset_words, ?_, ?_, ?_, ?_, ?_⟩
  · rw [hone]
    refine field_idtWord1 (by omega) (Nat.lt_succ_of_le call.p_le) ?_
    intro j hj
    grind
  · rw [hthree]
    refine field_idtWord1 (by omega) (Nat.lt_succ_of_le call.dpl_le) ?_
    intro j hj
    grind
  · -- the flag is the highest bit of the type
    rw [hone]
    refine field_idtWord1 (by omega) hflag ?_
    intro j hj
    obtain rfl : j = 0 := by omega
    rw [hattr]
    simp
  · rw [hfive]
    refine field_idtWord1 (by omega) ((Nat.lt_succ_of_le call.type_le).trans (by decide)) ?_
    intro j hj
    grind
  · rw [hseven, ← BitVec.ushiftRight_zero (idtWord1 _ _)]
    refine field_idtWord1 (by omega) (Nat.lt_succ_of_le call.ist_le) ?_
    intro j hj
    grind

end IDTCall

/-! ### Entries in memory -/

/-- Memory after the first three words of an entry have been written. -/
def putIDTEntry (base : BitVec 64) (i : ℕ) (p0 p1 p2 : BitVec 32) (mem : Memory 64) : Memory 64 :=
  let mem := write32 mem (base + BitVec.ofNat 64 (16 * i)) p0
  let mem := write32 mem (base + BitVec.ofNat 64 (16 * i + 4)) p1
  write32 mem (base + BitVec.ofNat 64 (16 * i + 8)) p2

section Entries

variable {idtr : DescriptorTableRegister} {index offset : BitVec 64} {attr selector : BitVec 16}
  {mem mem' : Memory 64} {base : BitVec 64} {i j : ℕ} {p0 p1 p2 : BitVec 32}

/-- The comparison of the source, in numbers: multiplying by sixteen drops the top four bits of
the index. -/
theorem gt_limit_iff : 16#64 * index + 15#64 > idtr.limit.setWidth 64 ↔
    idtr.limit.toNat < 16 * (index.toNat % 2 ^ 60) + 15 := by
  rw [gt_iff_lt, BitVec.lt_def, BitVec.toNat_setWidth]
  have hlimit := idtr.limit.isLt
  have hsum : (16#64 * index + 15#64).toNat = 16 * (index.toNat % 2 ^ 60) + 15 := by
    rw [BitVec.toNat_add, BitVec.toNat_mul, BitVec.toNat_ofNat, BitVec.toNat_ofNat]
    omega
  rw [hsum]
  omega

theorem setIDTEntry_of_lt (hout : idtr.limit.toNat < 16 * (index.toNat % 2 ^ 60) + 15) :
    setIDTEntry idtr index offset attr selector mem = (.indexOutOfRange, mem) :=
  if_pos (gt_limit_iff.mpr hout)

theorem setIDTEntry_of_le (hin : 16 * (index.toNat % 2 ^ 60) + 15 ≤ idtr.limit.toNat) :
    setIDTEntry idtr index offset attr selector mem =
      (.success, putIDTEntry idtr.base (index.toNat % 2 ^ 60) (idtWord0 offset selector)
        (idtWord1 offset attr) (idtWord2 offset) mem) := by
  have hshift : 4#64 * (4#64 * index) = BitVec.ofNat 64 (16 * (index.toNat % 2 ^ 60)) := by
    apply BitVec.eq_of_toNat_eq
    rw [BitVec.toNat_mul, BitVec.toNat_mul, BitVec.toNat_ofNat, BitVec.toNat_ofNat]
    omega
  have hnext : ∀ k, idtr.base + BitVec.ofNat 64 (16 * (index.toNat % 2 ^ 60)) + BitVec.ofNat 64 k =
      idtr.base + BitVec.ofNat 64 (16 * (index.toNat % 2 ^ 60) + k) := by
    intro k
    rw [BitVec.add_assoc, ← BitVec.ofNat_add]
  rw [setIDTEntry, if_neg (mt gt_limit_iff.mp (Nat.not_lt_of_le hin)), hshift, putIDTEntry,
    ← hnext 4, ← hnext 8]

/-- Writing an entry changes nothing before it and nothing from its fourth word on. -/
theorem putIDTEntry_of_offset (hi : 16 * i + 16 ≤ 2 ^ 64) {a : ℕ} (ha : a < 2 ^ 64)
    (hout : a < 16 * i ∨ 16 * i + 12 ≤ a) :
    putIDTEntry base i p0 p1 p2 mem (base + BitVec.ofNat 64 a) = mem (base + BitVec.ofNat 64 a) := by
  rw [putIDTEntry, write32_of_offset _ ha (by omega) (by omega),
    write32_of_offset _ ha (by omega) (by omega), write32_of_offset _ ha (by omega) (by omega)]

/-- The words of an entry are read as they were written. -/
theorem read32_putIDTEntry (base : BitVec 64) (p0 p1 p2 : BitVec 32) (mem : Memory 64)
    (hi : 16 * i + 16 ≤ 2 ^ 64) :
    read32 (putIDTEntry base i p0 p1 p2 mem) (base + BitVec.ofNat 64 (16 * i)) = p0 ∧
      read32 (putIDTEntry base i p0 p1 p2 mem) (base + BitVec.ofNat 64 (16 * i + 4)) = p1 ∧
      read32 (putIDTEntry base i p0 p1 p2 mem) (base + BitVec.ofNat 64 (16 * i + 8)) = p2 := by
  refine ⟨?_, ?_, read32_write32_self p2⟩
  · rw [putIDTEntry, read32_write32_of_disjoint _ (by omega) (by omega) (by omega),
      read32_write32_of_disjoint _ (by omega) (by omega) (by omega), read32_write32_self]
  · rw [putIDTEntry, read32_write32_of_disjoint _ (by omega) (by omega) (by omega),
      read32_write32_self]

/-- The printed entry in terms of the words of the table. -/
theorem readIDTEntry_eq (hi : i < 2 ^ 28) : readIDTEntry idtr (BitVec.ofNat 32 i) mem =
    decodeIDTEntry (read32 mem (idtr.base + BitVec.ofNat 64 (16 * i)))
      (read32 mem (idtr.base + BitVec.ofNat 64 (16 * i + 4)))
      (read32 mem (idtr.base + BitVec.ofNat 64 (16 * i + 8))) := by
  have hshift : (BitVec.ofNat 32 i <<< 4).setWidth 64 = BitVec.ofNat 64 (16 * i) := by
    apply BitVec.eq_of_toNat_eq
    rw [BitVec.toNat_setWidth, BitVec.toNat_shiftLeft, Nat.shiftLeft_eq, BitVec.toNat_ofNat,
      BitVec.toNat_ofNat]
    omega
  have hnext : ∀ k, idtr.base + BitVec.ofNat 64 (16 * i) + BitVec.ofNat 64 k =
      idtr.base + BitVec.ofNat 64 (16 * i + k) := by
    intro k
    rw [BitVec.add_assoc, ← BitVec.ofNat_add]
  rw [readIDTEntry, hshift, ← hnext 4, ← hnext 8]

/-- The printed entry depends on its bytes alone. -/
theorem readIDTEntry_congr (hi : i < 2 ^ 28)
    (hsame : ∀ k < 16, mem (idtr.base + BitVec.ofNat 64 (16 * i + k)) =
      mem' (idtr.base + BitVec.ofNat 64 (16 * i + k))) :
    readIDTEntry idtr (BitVec.ofNat 32 i) mem = readIDTEntry idtr (BitVec.ofNat 32 i) mem' := by
  have hword : ∀ k, k + 4 ≤ 16 → read32 mem (idtr.base + BitVec.ofNat 64 (16 * i + k)) =
      read32 mem' (idtr.base + BitVec.ofNat 64 (16 * i + k)) := by
    intro k hk
    apply Bytes.load_congr
    intro l hl
    rw [BitVec.add_assoc, ← BitVec.ofNat_add, Nat.add_assoc]
    exact hsame (k + l) (by omega)
  rw [readIDTEntry_eq hi, readIDTEntry_eq hi, hword 4 (by omega), hword 8 (by omega)]
  exact congrArg (decodeIDTEntry · _ _) (hword 0 (by omega))

end Entries

end Bitnos
