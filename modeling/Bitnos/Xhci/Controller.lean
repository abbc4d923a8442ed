/-
# Register views of the controller

`ArrayWrapper` and the arrays `Controller` makes of it. A view is a base address and a
number of elements, both taken from registers; the size of an element comes from its
type. Iterating over a view visits every element, available or not.
-/

import Bitnos.Xhci.EventRing

namespace Bitnos.Xhci

/-- `ArrayWrapper<T>` -/
structure ArrayWrapper where
  arrayBaseAddr : BitVec 64
  size : ℕ
  deriving DecidableEq

namespace ArrayWrapper

/-- The address of an element, for elements of the given number of bytes. -/
def element (array : ArrayWrapper) (bytes i : ℕ) : BitVec 64 :=
  array.arrayBaseAddr + BitVec.ofNat 64 (bytes * i)

/-- The elements from `begin()` to before `end()`. -/
def elements (array : ArrayWrapper) (bytes : ℕ) : List (BitVec 64) :=
  (List.range array.size).map (array.element bytes)

end ArrayWrapper

/-- The operational registers that say where the device contexts are. -/
structure OperationalRegisters where
  dcbaap : BitVec 64
  config : BitVec 32

/-- `MaxSlotsEnabled`: the number of slots the driver has enabled. -/
def maxSlotsEnabled (op : OperationalRegisters) : BitVec 8 := (op.config &&& 0xff#32).setWidth 8

/-- `Controller::DeviceContextAddresses` -/
def deviceContextAddresses (op : OperationalRegisters) : ArrayWrapper where
  arrayBaseAddr := clearBits op.dcbaap 0x3f#64
  size := (op.config &&& 0xff#32).toNat

theorem size_deviceContextAddresses (op : OperationalRegisters) :
    (deviceContextAddresses op).size = (maxSlotsEnabled op).toNat := by
  have hlt : (op.config &&& 0xff#32).toNat < 2 ^ 8 := BitMask.toNat_and_low_lt (k := 8) op.config
  rw [maxSlotsEnabled, BitVec.toNat_setWidth, Nat.mod_eq_of_lt hlt]
  rfl

end Bitnos.Xhci
