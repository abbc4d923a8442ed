/-
# The keyboard interrupt and the key loop of `MyMain`

Two activities share a queue of scancodes, a lock and a counter of lost keys:
the interrupt handler, which runs to completion and does not nest, and the main
loop, which an interrupt may find between any two reads or writes of a field.
The main loop is therefore a step function with one program point for each of
them, while the handler is a single function on the shared globals.

The last three fields of the system are a record of what happened, kept for
stating theorems; no step looks at them.
-/

import Bitnos.Math.Run
import Bitnos.Queue
import Bitnos.Mutex
import Bitnos.KeyDecode

namespace Bitnos

open PartialRun

/-- The globals shared by the handler and the main loop. -/
structure KeyShared where
  keydat : ArrayQueue (BitVec 8) 16
  keydatMutex : SpinLockMutex
  numLostkey : BitVec 32

/-- Which way the handler went: it pushed and got a result, or found the lock held. -/
inductive HandlerPath
  | pushed (err : Error)
  | lost
  deriving DecidableEq

/-- `Inthandler21`, for the byte `dat` read from the keyboard port. The code of
`Push` is dropped by the source; it appears here as part of the path taken. -/
def inthandler21 (dat : BitVec 8) (g : KeyShared) : Option (HandlerPath × KeyShared) :=
  let attempt := g.keydatMutex.tryLock
  if attempt.1 then
    -- a full queue drops the scancode here, and nothing counts it
    (g.keydat.push dat).map fun result =>
      (.pushed result.1, { g with keydat := result.2, keydatMutex := attempt.2.unlock })
  else
    some (.lost, { g with keydatMutex := attempt.2, numLostkey := g.numLostkey + 1 })

/-- The points of the main loop between which an interrupt may arrive. A value
already loaded from memory and not yet used is part of the point. -/
inductive Pc
  /-- `keydat_mutex.Lock()` -/
  | lock
  /-- `keydat.Count() == 0` -/
  | testCount
  /-- `keydat_mutex.Unlock()` on the empty path -/
  | unlockEmpty
  /-- about to execute `hlt` -/
  | hlt
  /-- stopped until the next interrupt -/
  | halted
  /-- `keydat.Front()` reads `read_pos_` -/
  | frontPos
  /-- `keydat.Front()` reads `data_[pos]` -/
  | frontData (pos : ℕ)
  /-- `keydat.Pop()` tests `count_ == 0` -/
  | popTest
  /-- `--count_` reads `count_` -/
  | popCountLoad
  /-- `--count_` writes `count_` -/
  | popCountStore (count : ℕ)
  /-- `++read_pos_` reads `read_pos_` -/
  | popPosLoad
  /-- `++read_pos_` writes `read_pos_` -/
  | popPosStore (pos : ℕ)
  /-- `read_pos_ == N` -/
  | popPosTest
  /-- `read_pos_ = 0` -/
  | popPosWrap
  /-- `keydat_mutex.Unlock()` once a key is taken -/
  | unlockKey
  /-- the decoding of the key taken -/
  | process
  deriving DecidableEq

/-- The points after the lock is taken and before it is released. -/
def Pc.critical : Pc → Bool
  | .lock | .hlt | .halted | .process => false
  | _ => true

/-- The points at which `Pop` has changed one of its two fields but not yet the other. -/
def Pc.midPop : Pc → Bool
  | .popPosLoad | .popPosStore _ | .popPosTest | .popPosWrap => true
  | _ => false

/-- Where the main loop goes on after an interrupt: a halted processor wakes up
behind its `hlt`, which is the loop head. -/
def Pc.wake (pc : Pc) : Pc := if pc = .halted then .lock else pc

/-- The whole system. -/
structure KeySystem extends KeyShared where
  pc : Pc
  /-- the local `key` -/
  key : BitVec 8
  /-- the local `shifted` -/
  shifted : Bool
  /-- the characters handed to `shell.PutChar` -/
  typed : List (BitVec 8)
  /-- the scancodes read from the port, one for each interrupt -/
  received : List (BitVec 8)
  /-- the scancodes whose `Push` returned `kSuccess` -/
  accepted : List (BitVec 8)
  /-- the scancodes removed from the queue by `Pop` -/
  taken : List (BitVec 8)

/-- The zero-initialised globals with the main loop before its first `Lock`. -/
def KeySystem.start : KeySystem where
  keydat := ⟨Vector.replicate 16 0, 0, 0, 0⟩
  keydatMutex := .clear
  numLostkey := 0
  pc := .lock
  key := 0
  shifted := false
  typed := []
  received := []
  accepted := []
  taken := []

/-- One step of the main loop. It refuses when the processor is halted, and when
`Front` would read outside the array. -/
def mainStep (s : KeySystem) : Option KeySystem :=
  match s.pc with
  | .lock =>
    let attempt := s.keydatMutex.lockAttempt
    some { s with keydatMutex := attempt.2, pc := if attempt.1 then .lock else .testCount }
  | .testCount => some { s with pc := if s.keydat.count = 0 then .unlockEmpty else .frontPos }
  | .unlockEmpty => some { s with keydatMutex := s.keydatMutex.unlock, pc := .hlt }
  | .hlt => some { s with pc := .halted }
  | .halted => none
  | .frontPos => some { s with pc := .frontData s.keydat.readPos }
  | .frontData pos => s.keydat.data[pos]?.map fun key => { s with key := key, pc := .popTest }
  | .popTest => some { s with pc := if s.keydat.count = 0 then .unlockKey else .popCountLoad }
  | .popCountLoad => some { s with pc := .popCountStore s.keydat.count }
  | .popCountStore count =>
    some { s with
      keydat := { s.keydat with count := sizeDec count }
      taken := s.taken ++ [s.key]
      pc := .popPosLoad }
  | .popPosLoad => some { s with pc := .popPosStore s.keydat.readPos }
  | .popPosStore pos =>
    some { s with keydat := { s.keydat with readPos := sizeInc pos }, pc := .popPosTest }
  | .popPosTest => some { s with pc := if s.keydat.readPos = 16 then .popPosWrap else .unlockKey }
  | .popPosWrap => some { s with keydat := { s.keydat with readPos := 0 }, pc := .unlockKey }
  | .unlockKey => some { s with keydatMutex := s.keydatMutex.unlock, pc := .process }
  | .process =>
    -- the decoding touches nothing the handler uses, so it is one step
    let decoded := decodeKey s.shifted s.key
    some { s with
      shifted := decoded.1
      typed := s.typed ++ decoded.2.toList
      pc := .lock }

/-- A keyboard interrupt that finds the byte `dat` in the port. -/
def interruptStep (dat : BitVec 8) (s : KeySystem) : Option KeySystem :=
  (inthandler21 dat s.toKeyShared).map fun result =>
    { s with
      toKeyShared := result.2
      -- an interrupt taken at the `hlt` returns behind it
      pc := s.pc.wake
      received := s.received ++ [dat]
      accepted := if result.1 = .pushed .success then s.accepted ++ [dat] else s.accepted }

/-- What may happen next: a step of the main loop or an interrupt. -/
inductive KeyAction
  | main
  | interrupt (dat : BitVec 8)
  deriving DecidableEq

/-- The step function of the system. -/
def keyStep (s : KeySystem) : KeyAction → Option KeySystem
  | .main => mainStep s
  | .interrupt dat => interruptStep dat s

/-! ### What the handler does on each of its three paths -/

theorem inthandler21_locked {g : KeyShared} (h : g.keydatMutex.flag ≠ SpinLockMutex.kClear)
    (dat : BitVec 8) :
    inthandler21 dat g = some (.lost, { g with numLostkey := g.numLostkey + 1 }) := by
  simp [inthandler21, SpinLockMutex.tryLock_of_ne_clear h]

theorem inthandler21_free {g : KeyShared} (h : g.keydatMutex.flag = SpinLockMutex.kClear)
    (dat : BitVec 8) :
    inthandler21 dat g = (g.keydat.push dat).map fun result =>
      (.pushed result.1, { g with keydat := result.2 }) := by
  have hmutex : g.keydatMutex = ⟨SpinLockMutex.kClear⟩ := congrArg SpinLockMutex.mk h
  simp [inthandler21, SpinLockMutex.tryLock_of_clear h, SpinLockMutex.unlock, ← hmutex]

/-- The handler restores the lock on every path, whatever state it is called in. -/
theorem inthandler21_keeps_lock {dat : BitVec 8} {g g' : KeyShared} {path : HandlerPath}
    (hrun : inthandler21 dat g = some (path, g')) : g'.keydatMutex = g.keydatMutex := by
  by_cases hflag : g.keydatMutex.flag = SpinLockMutex.kClear
  · rw [inthandler21_free hflag] at hrun
    obtain ⟨result, -, heq⟩ := Option.map_eq_some_iff.mp hrun
    obtain ⟨-, rfl⟩ := Prod.mk.inj heq
    rfl
  · rw [inthandler21_locked hflag] at hrun
    obtain ⟨-, rfl⟩ := Prod.mk.inj (Option.some.inj hrun)
    rfl

/-! ### The main loop between two interrupts -/

/-- Left alone, the steps of `Front` load what `ArrayQueue.front` gives. -/
theorem front_uninterrupted {s : KeySystem} (hpc : s.pc = .frontPos) :
    run keyStep s [.main, .main] =
      s.keydat.front.map fun key => { s with key, pc := .popTest } := by
  simp only [run, keyStep, mainStep, hpc, Option.bind_some, ArrayQueue.front, Option.bind_fun_some]

/-- Left alone, the steps of `Pop` do to the queue what `ArrayQueue.pop` does. -/
theorem pop_uninterrupted {s : KeySystem} (hpc : s.pc = .popTest) :
    ∃ n, run keyStep s (List.replicate n .main) = some
      { s with
        keydat := s.keydat.pop.2
        taken := if s.keydat.count = 0 then s.taken else s.taken ++ [s.key]
        pc := .unlockKey } := by
  by_cases hempty : s.keydat.count = 0
  · refine ⟨1, ?_⟩
    simp only [List.replicate, run, keyStep, mainStep, hpc, hempty, if_true, Option.bind_some,
      ArrayQueue.pop]
  -- the read position is set back to 0 at the end of the array only
  by_cases hend : sizeInc s.keydat.readPos = 16
  · refine ⟨7, ?_⟩
    simp only [List.replicate, run, keyStep, mainStep, hpc, hempty, hend, if_true, if_false,
      Option.bind_some, ArrayQueue.pop]
  · refine ⟨6, ?_⟩
    simp only [List.replicate, run, keyStep, mainStep, hpc, hempty, hend, if_false,
      Option.bind_some, ArrayQueue.pop]

end Bitnos
