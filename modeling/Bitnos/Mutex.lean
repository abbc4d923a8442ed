/-
# The spin lock `SpinLockMutex`

The lock is one 64-bit flag. It is taken by a compare-and-exchange, which is a
single atomic step, and released by a plain write after a load fence.
-/

import Mathlib.Data.BitVec

namespace Bitnos

/-- `CompareExchange` on a memory cell: the value returned and the new content. -/
def compareExchange (mem expected value : BitVec 64) : BitVec 64 × BitVec 64 :=
  if mem = expected then (expected, value) else (mem, mem)

/-- The single field of `SpinLockMutex`. -/
structure SpinLockMutex where
  flag : BitVec 64
  deriving DecidableEq

namespace SpinLockMutex

/-- `kClear` -/
def kClear : BitVec 64 := 0

/-- `kFlagged` -/
def kFlagged : BitVec 64 := 1

/-- A lock as its constructor leaves it. -/
def clear : SpinLockMutex := ⟨kClear⟩

/-- One turn of the loop in `Lock`: whether the loop goes round again, and the lock. -/
def lockAttempt (m : SpinLockMutex) : Bool × SpinLockMutex :=
  let result := compareExchange m.flag kClear kFlagged
  (kFlagged == result.1, ⟨result.2⟩)

/-- `TryLock` -/
def tryLock (m : SpinLockMutex) : Bool × SpinLockMutex :=
  let result := compareExchange m.flag kClear kFlagged
  (kClear == result.1, ⟨result.2⟩)

/-- `Unlock` -/
def unlock (_ : SpinLockMutex) : SpinLockMutex := ⟨kClear⟩

/-- `IsLocked` -/
def isLocked (m : SpinLockMutex) : Bool := m.flag == 1

theorem lockAttempt_of_clear {m : SpinLockMutex} (h : m.flag = kClear) :
    m.lockAttempt = (false, ⟨kFlagged⟩) := by
  simp [lockAttempt, compareExchange, h, kClear, kFlagged]

theorem lockAttempt_of_flagged {m : SpinLockMutex} (h : m.flag = kFlagged) :
    m.lockAttempt = (true, m) := by
  obtain ⟨flag⟩ := m
  obtain rfl : flag = kFlagged := h
  rfl

theorem tryLock_of_clear {m : SpinLockMutex} (h : m.flag = kClear) :
    m.tryLock = (true, ⟨kFlagged⟩) := by
  simp [tryLock, compareExchange, h]

theorem ne_clear_of_flagged {m : SpinLockMutex} (h : m.flag = kFlagged) : m.flag ≠ kClear := by
  rw [h]
  decide

theorem tryLock_of_ne_clear {m : SpinLockMutex} (h : m.flag ≠ kClear) :
    m.tryLock = (false, m) := by
  simp [tryLock, compareExchange, h, Ne.symm h]

@[simp] theorem unlock_flag (m : SpinLockMutex) : m.unlock.flag = kClear := rfl

end SpinLockMutex

end Bitnos
