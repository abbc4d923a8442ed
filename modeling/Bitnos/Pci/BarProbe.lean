/-
# Probing base address registers

What `CalcBarMapSize` finds and what it leaves behind, over all devices whose base
address registers have some bits hardwired and keep the others as last written.

A window of `2 ^ k` bytes has the bits below `k` hardwired, so after ones have been
written the lowest set bit above the flags is bit `k` (`probedSize_eq`). The flags take
four bits. An I/O window may be smaller than sixteen bytes, and then its size lies below
them.
-/

import Bitnos.Math.BitMask
import Bitnos.Pci.Bar

namespace Bitnos.Pci

open Xhci (clearBits)

/-! ### Hardwired bits -/

/-- The register at an address has the bits of a mask hardwired and keeps the others as
last written. -/
def Wired (hw : Hardware) (address wired : BitVec 32) : Prop :=
  ∀ old new, hw address old new = WiredWord.write wired old new

/-- The hardware whose registers have these bits hardwired. -/
def Hardware.ofWired (wired : BitVec 32 → BitVec 32) : Hardware := fun address =>
  WiredWord.write (wired address)

theorem wired_ofWired (wired : BitVec 32 → BitVec 32) (address : BitVec 32) :
    Wired (.ofWired wired) address (wired address) := fun _ _ => rfl

theorem Wired.getLsbD_ones {hw : Hardware} {address wired : BitVec 32}
    (hwired : Wired hw address wired) {old : BitVec 32} {j : ℕ} (hj : j < 32) :
    (hw address old 0xffffffff#32).getLsbD j =
      if wired.getLsbD j then old.getLsbD j else true := by
  have hone : (0xffffffff#32).getLsbD j = true := by
    exact (BitVec.getLsbD_allOnes ..).trans (decide_eq_true hj)
  rw [hwired, WiredWord.getLsbD_write, hone]

/-! ### The size found -/

section Size

variable {tempBar : BitVec 64} {k : ℕ}

theorem getLsbD_clearBits_flags {j : ℕ} (hj : j < 64) :
    (clearBits tempBar 0xf#64).getLsbD j = (tempBar.getLsbD j && !decide (j < 4)) :=
  Xhci.getLsbD_clearBits_low (k := 4) tempBar hj

theorem ctz_lt_of_ne_zero {x : BitVec 64} (hne : x ≠ 0#64) : x.ctz.toNat < 64 := by
  refine Nat.lt_of_not_le fun hge => ?_
  have hset := BitVec.getLsbD_true_ctz_of_ne_zero hne
  rw [BitVec.getLsbD_of_ge _ _ hge] at hset
  exact Bool.false_ne_true hset

/-- Where a bit above the flags is left, the size found is the value of the lowest one. -/
theorem toNat_probedSize (hne : clearBits tempBar 0xf#64 ≠ 0#64) :
    (probedSize tempBar).toNat = 2 ^ (clearBits tempBar 0xf#64).ctz.toNat := by
  have hlt : 2 ^ (clearBits tempBar 0xf#64).ctz.toNat < 2 ^ 64 :=
    Nat.pow_lt_pow_right (by omega) (ctz_lt_of_ne_zero hne)
  rw [probedSize, if_neg hne, bitScanForward, if_neg hne, Int.toNat_natCast,
    BitVec.toNat_shiftLeft, Nat.shiftLeft_eq]
  simpa using Nat.mod_eq_of_lt hlt

/-- A value whose lowest set bit above the flags is bit `k` stands for `2 ^ k` bytes. -/
theorem probedSize_eq (hfour : 4 ≤ k) (hk : k < 64) (hset : tempBar.getLsbD k = true)
    (hbelow : ∀ j, 4 ≤ j → j < k → tempBar.getLsbD j = false) :
    (probedSize tempBar).toNat = 2 ^ k := by
  have hsetVal : (clearBits tempBar 0xf#64).getLsbD k = true := by
    rw [getLsbD_clearBits_flags hk, hset, decide_eq_false (by omega)]
    rfl
  have hbelowVal : ∀ j < k, (clearBits tempBar 0xf#64).getLsbD j = false := by
    intro j hj
    rw [getLsbD_clearBits_flags (by omega)]
    by_cases hflag : j < 4
    · rw [decide_eq_true hflag, Bool.not_true, Bool.and_false]
    · rw [hbelow j (by omega) hj, Bool.false_and]
  have hne : clearBits tempBar 0xf#64 ≠ 0#64 := by
    intro hzero
    rw [hzero, BitVec.getLsbD_zero] at hsetVal
    exact Bool.false_ne_true hsetVal
  rw [toNat_probedSize hne, WiredWord.toNat_ctz_eq hsetVal hbelowVal]

/-- A size of one to fifteen bytes is never found. -/
theorem probedSize_eq_zero_or : (probedSize tempBar).toNat = 0 ∨ 16 ≤ (probedSize tempBar).toNat := by
  by_cases hzero : clearBits tempBar 0xf#64 = 0#64
  · left
    rw [probedSize, if_pos hzero]
    rfl
  · right
    have hset := BitVec.getLsbD_true_ctz_of_ne_zero hzero
    rw [getLsbD_clearBits_flags (ctz_lt_of_ne_zero hzero), Bool.and_eq_true,
      Bool.not_eq_true', decide_eq_false_iff_not] at hset
    rw [toNat_probedSize hzero]
    exact Nat.pow_le_pow_right (n := 2) (by omega) (Nat.le_of_not_lt hset.2)

end Size

/-! ### What is left behind -/

/-- Each of the six BAR registers has some bits hardwired and keeps the others as last
written. -/
def BarsWired (hw : Hardware) (device : Device) : Prop :=
  ∀ barIndex : BitVec 32, barIndex.toNat < 6 → ∃ wired, Wired hw (device.barAddress barIndex) wired

section Restored

variable {hw : Hardware} {device : Device} {s t : ConfigState} {barIndex : BitVec 32}

/-- Writing back what a register held undoes an earlier write to it. -/
theorem Wired.restore {address wired : BitVec 32} (hwired : Wired hw address wired)
    (old mid : BitVec 32) : hw address (hw address old mid) old = old := by
  rw [hwired, hwired, WiredWord.write_write, WiredWord.write_self]

theorem space_calcBarMapSize32 (hi : barIndex.toNat < 6)
    (hbar : s.space (device.barAddress barIndex) &&& 4#32 = 0#32) (hbars : BarsWired hw device) :
    ((calcBarMapSize hw device barIndex).run s).2.space = s.space := by
  obtain ⟨wired, hwired⟩ := hbars barIndex hi
  obtain ⟨t, hrun, hspace⟩ := run_calcBarMapSize32 hw hi hbar
  rw [hrun, hspace]
  simp only [probed32, Function.update_self, Function.update_idem, hwired.restore,
    Function.update_eq_self]

theorem space_calcBarMapSize64 (hi : barIndex.toNat < 5)
    (hbar : s.space (device.barAddress barIndex) &&& 4#32 ≠ 0#32) (hbars : BarsWired hw device) :
    ((calcBarMapSize hw device barIndex).run s).2.space = s.space := by
  obtain ⟨wired, hwired⟩ := hbars barIndex (by omega)
  obtain ⟨wiredUpper, hupper⟩ := hbars (barIndex + 1#32) (by bv_omega)
  rw [← device.barUpperAddress_eq] at hupper
  obtain ⟨t, hrun, hspace⟩ := run_calcBarMapSize64 hw hi hbar
  rw [hrun, hspace]
  funext address
  have hne : device.barUpperAddress barIndex ≠ device.barAddress barIndex :=
    device.barUpperAddress_ne
  by_cases hu : address = device.barUpperAddress barIndex
  · subst hu
    rw [Function.update_self, probed64, Function.update_self, hupper.restore]
  · rw [Function.update_of_ne hu]
    by_cases ha : address = device.barAddress barIndex
    · subst ha
      rw [Function.update_self, probed64, Function.update_of_ne hne.symm, Function.update_self,
        hwired.restore]
    · rw [Function.update_of_ne ha, probed64, Function.update_of_ne hu, Function.update_of_ne ha]

end Restored

/-- After a probe every register of every device reads as before, and a probe that fails has
written nothing. -/
theorem calcBarMapSize_restores (hw : Hardware) (device : Device) (s : ConfigState)
    (barIndex : BitVec 32) (hbars : BarsWired hw device) :
    (∀ (other : Device) (addr : BitVec 8),
        ((other.readConfReg addr).run ((calcBarMapSize hw device barIndex).run s).2).1 =
          ((other.readConfReg addr).run s).1) ∧
      (((calcBarMapSize hw device barIndex).run s).1.error.isError →
        ((calcBarMapSize hw device barIndex).run s).2.written = s.written) := by
  have hread : ∀ t : ConfigState, t.space = s.space → ∀ (other : Device) (addr : BitVec 8),
      ((other.readConfReg addr).run t).1 = ((other.readConfReg addr).run s).1 := by
    intro t ht other addr
    rw [Device.run_readConfReg, Device.run_readConfReg, ht]
  obtain herror | ⟨hi, hbar⟩ | ⟨hi, hbar⟩ := device.barIn_cases s.space barIndex
  · obtain ⟨a, hrun⟩ := run_calcBarMapSize_of_error hw herror
    rw [hrun]
    exact ⟨hread _ rfl, fun _ => rfl⟩
  · refine ⟨hread _ (space_calcBarMapSize32 hi hbar hbars), fun herror => ?_⟩
    -- a probe that gets as far as writing does not fail
    obtain ⟨t, hrun, -⟩ := run_calcBarMapSize32 hw hi hbar
    rw [hrun] at herror
    exact absurd herror Bool.false_ne_true
  · refine ⟨hread _ (space_calcBarMapSize64 hi hbar hbars), fun herror => ?_⟩
    obtain ⟨t, hrun, -⟩ := run_calcBarMapSize64 hw hi hbar
    rw [hrun] at herror
    exact absurd herror Bool.false_ne_true

/-- Four ports from 0xc000 in the last BAR. While ones stand in it the register looks like the
lower half of a 64-bit BAR, which cannot be there; it is restored all the same. -/
theorem calcBarMapSize_restores_lastBar :
    let device : Device := ⟨0#8, 31#8, 2#8, 0#8⟩
    let hw : Hardware := .ofWired fun address =>
      if address = 0x8000fa24#32 then 0x00000003#32 else 0#32
    let space : ConfigSpace := fun address =>
      if address = 0x8000fa24#32 then 0x0000c001#32 else 0xffffffff#32
    let s : ConfigState := ⟨⟨space, 0#32⟩, []⟩
    ((device.readConfReg 0x24#8).run ((calcBarMapSize hw device 5#32).run s).2).1 = 0xc001#32 :=
  (calcBarMapSize_restores _ _ _ _ fun _ _ => ⟨_, wired_ofWired _ _⟩).1 _ _

/-! ### Windows -/

section Windows

variable (hw : Hardware) (device : Device) (space : ConfigSpace) (barIndex : BitVec 32)

/-- A BAR for a window of `2 ^ k` bytes in 32-bit memory. Bit 1 of the type only limits
where the window may lie, bit 3 says whether reads may be prefetched. -/
structure IsMemory32 (k : ℕ) : Prop where
  index : barIndex.toNat < 6
  size : 4 ≤ k ∧ k < 32
  wired : Wired hw (device.barAddress barIndex) (BitMask.low 32 k)
  memory : (space (device.barAddress barIndex)).getLsbD 0 = false
  narrow : (space (device.barAddress barIndex)).getLsbD 2 = false
  aligned : ∀ j, 4 ≤ j → j < k → (space (device.barAddress barIndex)).getLsbD j = false

/-- A BAR for a window of `2 ^ k` bytes in 64-bit memory, with its upper half. -/
structure IsMemory64 (k : ℕ) : Prop where
  index : barIndex.toNat < 5
  size : 4 ≤ k ∧ k < 64
  wired : Wired hw (device.barAddress barIndex) (BitMask.low 32 k)
  wiredUpper : Wired hw (device.barUpperAddress barIndex) (BitMask.low 32 (k - 32))
  memory : (space (device.barAddress barIndex)).getLsbD 0 = false
  wide : (space (device.barAddress barIndex)).getLsbD 2 = true
  aligned : ∀ j, 4 ≤ j → j < k → j < 32 → (space (device.barAddress barIndex)).getLsbD j = false
  alignedUpper : ∀ j, j + 32 < k → (space (device.barUpperAddress barIndex)).getLsbD j = false

/-- A BAR that is not there: it reads zero, whatever is written. -/
structure IsUnimplemented : Prop where
  index : barIndex.toNat < 6
  zero : space (device.barAddress barIndex) = 0#32
  ignores : ∀ new, hw (device.barAddress barIndex) 0#32 new = 0#32

/-- A BAR for a window of `2 ^ k` ports. -/
structure IsIo (k : ℕ) : Prop where
  index : barIndex.toNat < 6
  size : 2 ≤ k ∧ k < 32
  wired : Wired hw (device.barAddress barIndex) (BitMask.low 32 k)
  io : (space (device.barAddress barIndex)).getLsbD 0 = true
  reserved : (space (device.barAddress barIndex)).getLsbD 1 = false
  aligned : ∀ j, 2 ≤ j → j < k → (space (device.barAddress barIndex)).getLsbD j = false

end Windows

/-- What a memory BAR may be. -/
inductive MemoryBar
  | memory32 (k : ℕ)
  | memory64 (k : ℕ)
  | unimplemented

namespace MemoryBar

/-- The BAR of the device at the index is this one. -/
def At (hw : Hardware) (device : Device) (space : ConfigSpace) (barIndex : BitVec 32) :
    MemoryBar → Prop
  | memory32 k => IsMemory32 hw device space barIndex k
  | memory64 k => IsMemory64 hw device space barIndex k
  | unimplemented => IsUnimplemented hw device space barIndex

def size : MemoryBar → ℕ
  | memory32 k => 2 ^ k
  | memory64 k => 2 ^ k
  | unimplemented => 0

end MemoryBar

section Found

variable {hw : Hardware} {device : Device} {s : ConfigState} {barIndex : BitVec 32} {k : ℕ}

/-- What ones leave in a register whose bits below `k` are hardwired. -/
theorem Wired.getLsbD_ones_low {a old : BitVec 32} (hwired : Wired hw a (BitMask.low 32 k)) {j : ℕ}
    (hj : j < 32) :
    (hw a old 0xffffffff#32).getLsbD j = if j < k then old.getLsbD j else true := by
  rw [hwired.getLsbD_ones hj, BitMask.getLsbD_low_of_lt hj]
  simp only [decide_eq_true_eq]

/-- A register alone, with the flag for 64 bits clear and zeros under bit `k`, is found to
be a window of `2 ^ k` bytes. Bits 0 and 1 are not looked at. -/
theorem calcBarMapSize_narrow (hi : barIndex.toNat < 6) (hk : 4 ≤ k ∧ k < 32)
    (hwired : Wired hw (device.barAddress barIndex) (BitMask.low 32 k))
    (hnarrow : (s.space (device.barAddress barIndex)).getLsbD 2 = false)
    (haligned : ∀ j, 4 ≤ j → j < k → (s.space (device.barAddress barIndex)).getLsbD j = false) :
    ((calcBarMapSize hw device barIndex).run s).1.value.toNat = 2 ^ k ∧
      ((calcBarMapSize hw device barIndex).run s).1.error = .success := by
  obtain ⟨t, hrun, -⟩ := run_calcBarMapSize32 hw hi (bar_and_four.mpr hnarrow)
  have hprobed : probed32 hw device s.space barIndex (device.barAddress barIndex) =
      hw (device.barAddress barIndex) (s.space (device.barAddress barIndex)) 0xffffffff#32 :=
    Function.update_self ..
  have hbit : (probed32 hw device s.space barIndex (device.barAddress barIndex)).getLsbD 2 =
      false := by
    rw [hprobed, hwired.getLsbD_ones_low (by omega), if_pos (by omega), hnarrow]
  rw [hrun, Device.barIn, if_neg (by omega), if_pos (bar_and_four.mpr hbit), hprobed]
  refine ⟨probedSize_eq hk.1 (by omega) ?_ fun j hj hjk => ?_, rfl⟩
  · rw [BitVec.getLsbD_setWidth, hwired.getLsbD_ones_low hk.2, if_neg (by omega)]
    simpa using hk.2.trans (by omega)
  · rw [BitVec.getLsbD_setWidth, hwired.getLsbD_ones_low (by omega), if_pos hjk,
      haligned j hj hjk, Bool.and_false]

/-- A register with its upper half is found to be a window of `2 ^ k` bytes. From 4 GiB on the
lower half reads back nothing but its flags. -/
theorem calcBarMapSize_wide (h : IsMemory64 hw device s.space barIndex k) :
    ((calcBarMapSize hw device barIndex).run s).1.value.toNat = 2 ^ k ∧
      ((calcBarMapSize hw device barIndex).run s).1.error = .success := by
  have hi := h.index
  have hk := h.size
  have hwide : ∀ {bar : BitVec 32}, bar.getLsbD 2 = true → bar &&& 4#32 ≠ 0#32 := by
    intro bar hbit
    rw [Ne, bar_and_four, hbit]
    decide
  obtain ⟨t, hrun, -⟩ := run_calcBarMapSize64 hw hi (hwide h.wide)
  have hprobed : probed64 hw device s.space barIndex (device.barAddress barIndex) =
      hw (device.barAddress barIndex) (s.space (device.barAddress barIndex)) 0xffffffff#32 := by
    rw [probed64, Function.update_of_ne device.barUpperAddress_ne.symm, Function.update_self]
  have hprobedUpper : probed64 hw device s.space barIndex (device.barUpperAddress barIndex) =
      hw (device.barUpperAddress barIndex) (s.space (device.barUpperAddress barIndex))
        0xffffffff#32 := Function.update_self ..
  have hbit : (probed64 hw device s.space barIndex (device.barAddress barIndex)).getLsbD 2 =
      true := by
    rw [hprobed, h.wired.getLsbD_ones_low (by omega), if_pos (by omega), h.wide]
  rw [hrun, Device.barIn, if_neg (by omega), if_neg (hwide hbit), if_neg (by omega), hprobed,
    hprobedUpper]
  refine ⟨probedSize_eq hk.1 hk.2 ?_ fun j hj hjk => ?_, rfl⟩
  · rw [getLsbD_joinBar]
    split_ifs with hlow
    · rw [h.wired.getLsbD_ones_low hlow, if_neg (by omega)]
    · rw [h.wiredUpper.getLsbD_ones_low (by omega), if_neg (by omega)]
  · rw [getLsbD_joinBar]
    split_ifs with hlow
    · rw [h.wired.getLsbD_ones_low hlow, if_pos hjk, h.aligned j hj hjk hlow]
    · rw [h.wiredUpper.getLsbD_ones_low (by omega), if_pos (by omega),
        h.alignedUpper _ (by omega)]

theorem calcBarMapSize_unimplemented (h : IsUnimplemented hw device s.space barIndex) :
    ((calcBarMapSize hw device barIndex).run s).1.value.toNat = 0 ∧
      ((calcBarMapSize hw device barIndex).run s).1.error = .success := by
  have hi := h.index
  have hflag : (0#32 : BitVec 32) &&& 4#32 = 0#32 := rfl
  obtain ⟨t, hrun, -⟩ := run_calcBarMapSize32 hw hi (by rw [h.zero, hflag])
  have hprobed : probed32 hw device s.space barIndex (device.barAddress barIndex) = 0#32 := by
    rw [probed32, Function.update_self, h.zero, h.ignores]
  rw [hrun, Device.barIn, if_neg (by omega), hprobed, if_pos hflag]
  exact ⟨rfl, rfl⟩

end Found

/-- The size of a memory window is found exactly, and no size where there is no window. -/
theorem calcBarMapSize_memory (hw : Hardware) (device : Device) (s : ConfigState)
    (barIndex : BitVec 32) (bar : MemoryBar) (hbar : bar.At hw device s.space barIndex) :
    ((calcBarMapSize hw device barIndex).run s).1.value.toNat = bar.size ∧
      ((calcBarMapSize hw device barIndex).run s).1.error = .success := by
  cases bar with
  | memory32 k =>
    exact calcBarMapSize_narrow hbar.index hbar.size hbar.wired hbar.narrow hbar.aligned
  | memory64 k => exact calcBarMapSize_wide hbar
  | unimplemented => exact calcBarMapSize_unimplemented hbar

/-- A window of 8 GiB at 16 GiB, in BARs 4 and 5 of the function at 0:2.0. -/
theorem calcBarMapSize_memory_eightGiB :
    let device : Device := ⟨0#8, 2#8, 0#8, 0#8⟩
    let hw : Hardware := .ofWired fun address =>
      if address = 0x80001020#32 then 0xffffffff#32
      else if address = 0x80001024#32 then 0x00000001#32
      else 0#32
    let space : ConfigSpace := fun address =>
      if address = 0x80001020#32 then 0x0000000c#32
      else if address = 0x80001024#32 then 0x00000004#32
      else 0xffffffff#32
    let size := ((calcBarMapSize hw device 4#32).run ⟨⟨space, 0#32⟩, []⟩).1
    size.value.toNat = 2 ^ 33 ∧ size.error = .success := by
  refine calcBarMapSize_memory _ _ _ _ (.memory64 33)
    ⟨by decide, by decide, wired_ofWired _ _, wired_ofWired _ _, rfl, rfl, ?_, ?_⟩
  · intro j hj hk hlow
    interval_cases j <;> rfl
  · intro j hj
    obtain rfl : j = 0 := by omega
    rfl

/-! ### I/O windows -/

section Io

variable {hw : Hardware} {device : Device} {s : ConfigState} {barIndex : BitVec 32} {k : ℕ}

/-- Whatever the device, no size of one to fifteen bytes is found. -/
theorem calcBarMapSize_eq_zero_or :
    ((calcBarMapSize hw device barIndex).run s).1.value.toNat = 0 ∨
      16 ≤ ((calcBarMapSize hw device barIndex).run s).1.value.toNat := by
  obtain herror | ⟨hi, hbar⟩ | ⟨hi, hbar⟩ := device.barIn_cases s.space barIndex
  · obtain ⟨a, hrun⟩ := run_calcBarMapSize_of_error hw herror
    rw [hrun]
    exact .inl rfl
  · obtain ⟨t, hrun, -⟩ := run_calcBarMapSize32 hw hi hbar
    rw [hrun]
    exact probedSize_eq_zero_or
  · obtain ⟨t, hrun, -⟩ := run_calcBarMapSize64 hw hi hbar
    rw [hrun]
    exact probedSize_eq_zero_or

/-- From sixteen ports on, bit 2 is an address bit that is hardwired to zero, and the register
is read alone. -/
theorem readBar_io (h : IsIo hw device s.space barIndex k) (hk : 4 ≤ k) :
    ((readBar device barIndex).run s).1 =
      ⟨(s.space (device.barAddress barIndex)).setWidth 64, .success⟩ := by
  have hi := h.index
  obtain ⟨a, hrun⟩ := device.run_readBar barIndex s
  rw [hrun, Device.barIn, if_neg (by omega),
    if_pos (bar_and_four.mpr (h.aligned 2 (by omega) (by omega)))]

end Io

/-- An I/O window is read and sized as it should be exactly when it has sixteen ports or more. -/
theorem calcBarMapSize_io_iff (hw : Hardware) (device : Device) (s : ConfigState)
    (barIndex : BitVec 32) (k : ℕ) (hbar : IsIo hw device s.space barIndex k) :
    ((readBar device barIndex).run s).1 =
          ⟨(s.space (device.barAddress barIndex)).setWidth 64, .success⟩ ∧
        ((calcBarMapSize hw device barIndex).run s).1.value.toNat = 2 ^ k ∧
        ((calcBarMapSize hw device barIndex).run s).1.error = .success ↔
      16 ≤ 2 ^ k := by
  have hsize := hbar.size
  constructor
  · rintro ⟨-, hvalue, -⟩
    have hpos : 0 < 2 ^ k := Nat.two_pow_pos k
    rw [← hvalue]
    exact (calcBarMapSize_eq_zero_or).resolve_left (by omega)
  · intro hsixteen
    have hk : 4 ≤ k := (Nat.pow_le_pow_iff_right (a := 2) (by omega)).mp hsixteen
    exact ⟨readBar_io hbar hk,
      calcBarMapSize_narrow hbar.index ⟨hk, hsize.2⟩ hbar.wired
        (hbar.aligned 2 (by omega) (by omega)) fun j hj hjk => hbar.aligned j (by omega) hjk⟩

/-- 32 ports from 0xc020, in BAR 0 of the function at 0:31.2. -/
theorem calcBarMapSize_io_iff_thirtyTwo :
    let device : Device := ⟨0#8, 31#8, 2#8, 0#8⟩
    let hw : Hardware := .ofWired fun address =>
      if address = 0x8000fa10#32 then 0x0000001f#32 else 0#32
    let space : ConfigSpace := fun address =>
      if address = 0x8000fa10#32 then 0x0000c021#32 else 0xffffffff#32
    let s : ConfigState := ⟨⟨space, 0#32⟩, []⟩
    ((readBar device 0#32).run s).1 = ⟨0xc021#64, .success⟩ ∧
      ((calcBarMapSize hw device 0#32).run s).1.value.toNat = 2 ^ 5 ∧
      ((calcBarMapSize hw device 0#32).run s).1.error = .success := by
  refine (calcBarMapSize_io_iff _ _ _ _ 5
    ⟨by decide, by decide, wired_ofWired _ _, rfl, rfl, ?_⟩).mpr (by decide)
  intro j hj hk
  interval_cases j <;> rfl

/-- Four ports from 0xc004, in the last BAR of the function at 0:31.2: bit 2 of the port number
is taken for the flag of a 64-bit BAR, and there is no register after the last one. -/
theorem readBar_fourPorts :
    let device : Device := ⟨0#8, 31#8, 2#8, 0#8⟩
    let hw : Hardware := .ofWired fun address =>
      if address = 0x8000fa24#32 then 0x00000003#32 else 0#32
    let space : ConfigSpace := fun address =>
      if address = 0x8000fa24#32 then 0x0000c005#32 else 0xffffffff#32
    let s : ConfigState := ⟨⟨space, 0#32⟩, []⟩
    IsIo hw device space 5#32 2 ∧
      ((readBar device 5#32).run s).1 = ⟨0#64, .indexOutOfRange⟩ ∧
      ((calcBarMapSize hw device 5#32).run s).1 = ⟨0#64, .indexOutOfRange⟩ := by
  refine ⟨⟨by decide, by decide, wired_ofWired _ _, rfl, rfl, ?_⟩, rfl, rfl⟩
  intro j hj hk
  omega

end Bitnos.Pci
