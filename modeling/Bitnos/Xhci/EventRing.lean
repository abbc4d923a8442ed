/-
# The event ring

`eventring::Manager` with the interrupter registers and the memory it works on, and
the controller on the other side. The controller posts events, the driver asks for
the front and pops it. Nothing counts the events: the driver compares the cycle bit
in front of it with the cycle it expects.
-/

import Bitnos.Math.BitMask
import Bitnos.Math.CycleRing
import Bitnos.Math.Run
import Bitnos.Xhci.Trb

namespace Bitnos.Xhci

open CycleRing

/-- `bitutil::ClearBits` -/
def clearBits {w : ℕ} (value bitsCleared : BitVec w) : BitVec w := value &&& ~~~bitsCleared

/-- Clearing the low bits keeps the others. -/
theorem getLsbD_clearBits_low {w k j : ℕ} (value : BitVec w) (hj : j < w) :
    (clearBits value (BitMask.low w k)).getLsbD j = (value.getLsbD j && !decide (j < k)) := by
  rw [clearBits, BitVec.getLsbD_and, BitVec.getLsbD_not, BitMask.getLsbD_low_of_lt hj,
    decide_eq_true hj, Bool.true_and]

/-! ### Segments -/

structure SegmentTableEntry where
  segmentBaseAddress : BitVec 64
  segmentSize : BitVec 16
  deriving DecidableEq

namespace SegmentTableEntry

def size (segment : SegmentTableEntry) : ℕ := segment.segmentSize.toNat

def begin (segment : SegmentTableEntry) : BitVec 64 := segment.segmentBaseAddress

/-- The address of the block with the given index: `begin() + index`. -/
def slot (segment : SegmentTableEntry) (index : ℕ) : BitVec 64 :=
  segment.begin + BitVec.ofNat 64 (16 * index)

def cend (segment : SegmentTableEntry) : BitVec 64 := segment.slot segment.size

/-- All blocks of the segment. -/
def slots (segment : SegmentTableEntry) : List (BitVec 64) :=
  (List.range segment.size).map segment.slot

end SegmentTableEntry

/-! ### The manager -/

/-- Memory by what it holds: blocks, and entries of segment tables. The two do not
overlap. -/
structure Memory where
  trbs : BitVec 64 → TRB
  entries : BitVec 64 → SegmentTableEntry

/-- The registers of an interrupter that the manager uses. -/
structure InterrupterRegSet where
  erstsz : BitVec 32
  erstba : BitVec 64
  erdp : BitVec 64

/-- `eventring::Manager`, with the registers and the memory behind its pointers. -/
structure Manager where
  intRegSet : InterrupterRegSet
  memory : Memory
  producerCycle : BitVec 8
  erst : BitVec 64
  erstSize : ℕ
  erstIndex : ℕ

namespace Manager

def readDequeuePointer (m : Manager) : BitVec 64 := clearBits m.intRegSet.erdp 0xf#64

def writeDequeuePointer (m : Manager) (p : BitVec 64) : Manager :=
  { m with intRegSet := { m.intRegSet with erdp := p } }

/-- `erst_[i]` -/
def segment (m : Manager) (i : ℕ) : SegmentTableEntry :=
  m.memory.entries (m.erst + BitVec.ofNat 64 (16 * i))

/-- Write a block to memory. -/
def writeTrb (m : Manager) (p : BitVec 64) (trb : TRB) : Manager :=
  { m with memory := { m.memory with trbs := Function.update m.memory.trbs p trb } }

/-- `memset` of a segment to zero. -/
def clearSegment (m : Manager) (segment : SegmentTableEntry) : Manager :=
  segment.slots.foldl (fun m p => m.writeTrb p .zero) m

/-- The manager over other blocks. -/
def withTrbs (m : Manager) (trbs : BitVec 64 → TRB) : Manager :=
  { m with memory := { m.memory with trbs } }

/-- The blocks after those at the given addresses were cleared. -/
def cleared (ps : List (BitVec 64)) (trbs : BitVec 64 → TRB) (p : BitVec 64) : TRB :=
  if p ∈ ps then .zero else trbs p

theorem cleared_nil (trbs : BitVec 64 → TRB) : cleared [] trbs = trbs := by
  funext p
  exact if_neg List.not_mem_nil

theorem cleared_append (ps qs : List (BitVec 64)) (trbs : BitVec 64 → TRB) :
    cleared (ps ++ qs) trbs = cleared qs (cleared ps trbs) := by
  funext p
  simp only [cleared, List.mem_append]
  by_cases hq : p ∈ qs <;> simp [hq]

theorem clearSegment_eq (m : Manager) (segment : SegmentTableEntry) :
    m.clearSegment segment = m.withTrbs (cleared segment.slots m.memory.trbs) := by
  have hall : ∀ (ps : List (BitVec 64)) (m : Manager),
      ps.foldl (fun m p => m.writeTrb p .zero) m = m.withTrbs (cleared ps m.memory.trbs) := by
    intro ps
    induction ps with
    | nil =>
      intro m
      rw [cleared_nil]
      rfl
    | cons q ps ih =>
      intro m
      have hwrite : m.writeTrb q .zero = m.withTrbs (cleared [q] m.memory.trbs) := by
        simp only [writeTrb, withTrbs]
        congr 2
        funext p
        simp [cleared, Function.update_apply]
      have hcons : cleared (q :: ps) m.memory.trbs = cleared ps (cleared [q] m.memory.trbs) :=
        cleared_append [q] ps m.memory.trbs
      rw [List.foldl_cons, ih, hwrite, hcons]
      rfl
  exact hall segment.slots m

theorem foldl_clearSegment (is : List ℕ) (m : Manager) :
    is.foldl (fun m i => m.clearSegment (m.segment i)) m =
      m.withTrbs (cleared (is.flatMap fun i => (m.segment i).slots) m.memory.trbs) := by
  induction is generalizing m with
  | nil =>
    rw [List.flatMap_nil, cleared_nil]
    rfl
  | cons i is ih =>
    rw [List.foldl_cons, ih, clearSegment_eq, List.flatMap_cons, cleared_append]
    rfl

/-- `Manager::Initialize` -/
def managerInitialize (m : Manager) : Manager :=
  -- reload base address to reset the state of the ring
  let erstba := m.intRegSet.erstba
  let m := { m with
    intRegSet := { m.intRegSet with erstba }
    producerCycle := 1#8
    erst := clearBits erstba 0x3f#64
    erstSize := (m.intRegSet.erstsz &&& 0xffff#32).toNat
    erstIndex := 0 }
  let m := m.writeDequeuePointer (m.segment 0).begin
  (List.range m.erstSize).foldl (fun m i => m.clearSegment (m.segment i)) m

def front (m : Manager) : TRB := m.memory.trbs m.readDequeuePointer

def hasFront (m : Manager) : Bool := m.front.cycleBit.toNat = m.producerCycle.toNat

def pop (m : Manager) : Manager :=
  let p := m.readDequeuePointer + 16#64
  let currentSegment := m.segment m.erstIndex
  if p = currentSegment.cend then
    let erstIndex := m.erstIndex + 1
    -- past the last segment the lap ends, and the expected cycle bit flips
    let m :=
      if erstIndex = m.erstSize then
        { m with erstIndex := 0, producerCycle := 1#8 - m.producerCycle }
      else
        { m with erstIndex }
    m.writeDequeuePointer (m.segment m.erstIndex).begin
  else
    m.writeDequeuePointer p

end Manager

/-! ### Driver and controller -/

/-- The event ring at work. `cursor` is where the controller writes next and
`unreleased` the slots it has written and may not reuse yet, oldest first; `sawFront`
says that `HasFront` returned true since the last `Pop`. The two logs collect the
blocks posted and popped. -/
structure EventSystem where
  manager : Manager
  cursor : Cursor
  unreleased : List (BitVec 64)
  sawFront : Bool
  posted : List TRB
  popped : List TRB

inductive EventAction
  /-- The controller posts an event and leaves its flags in the low bits of ERDP. -/
  | post (event : TRB) (flags : BitVec 4)
  | hasFront
  | front
  | pop

namespace EventSystem

/-- The state right after `Initialize`, whatever was there before. -/
def start (m : Manager) : EventSystem where
  manager := m.managerInitialize
  cursor := .start true
  unreleased := []
  sawFront := false
  posted := []
  popped := []

/-- The slot the controller writes next. -/
def enqueueSlot (s : EventSystem) : BitVec 64 :=
  (s.manager.segment s.cursor.segment).slot s.cursor.index

end EventSystem

/-- The driver moved ERDP: all slots before it are released. -/
def release (erdp : BitVec 64) (unreleased : List (BitVec 64)) : List (BitVec 64) :=
  unreleased.tail.dropWhile (· ≠ erdp)

def eventStep (s : EventSystem) : EventAction → Option EventSystem
  | .post event flags =>
    -- a full ring holds the controller up
    if s.enqueueSlot ∈ s.unreleased then none
    else
      let trb := event.withCycle s.cursor.tag
      let m := s.manager.writeTrb s.enqueueSlot trb
      some { s with
        -- the flags are in the low bits, which the manager masks out
        manager := m.writeDequeuePointer (m.readDequeuePointer ||| flags.setWidth 64)
        cursor := s.cursor.advance s.manager.erstSize fun i => (s.manager.segment i).size
        unreleased := s.unreleased ++ [s.enqueueSlot]
        posted := s.posted ++ [trb] }
  | .hasFront => some { s with sawFront := s.manager.hasFront }
  | .front => some s
  | .pop =>
    if s.sawFront then
      some { s with
        manager := s.manager.pop
        unreleased := release s.manager.pop.readDequeuePointer s.unreleased
        sawFront := false
        popped := s.popped ++ [s.manager.front] }
    else none

/-- What posting does, and when it is possible. -/
theorem eventStep_post {s t : EventSystem} {event : TRB} {flags : BitVec 4}
    (hstep : eventStep s (.post event flags) = some t) :
    s.enqueueSlot ∉ s.unreleased ∧
      t = { s with
        manager := (s.manager.writeTrb s.enqueueSlot (event.withCycle s.cursor.tag)).writeDequeuePointer
          (s.manager.readDequeuePointer ||| flags.setWidth 64)
        cursor := s.cursor.advance s.manager.erstSize fun i => (s.manager.segment i).size
        unreleased := s.unreleased ++ [s.enqueueSlot]
        posted := s.posted ++ [event.withCycle s.cursor.tag] } := by
  rw [eventStep] at hstep
  split_ifs at hstep with hfull
  exact ⟨hfull, (Option.some.inj hstep).symm⟩

/-- What popping does, and when it is possible. -/
theorem eventStep_pop {s t : EventSystem} (hstep : eventStep s .pop = some t) :
    s.sawFront = true ∧
      t = { s with
        manager := s.manager.pop
        unreleased := release s.manager.pop.readDequeuePointer s.unreleased
        sawFront := false
        popped := s.popped ++ [s.manager.front] } := by
  rw [eventStep] at hstep
  split_ifs at hstep with hsaw
  exact ⟨hsaw, (Option.some.inj hstep).symm⟩

end Bitnos.Xhci
