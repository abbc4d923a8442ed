/-
# The event ring is a FIFO

Driver and controller are cursors that run through the segment table, and memory is
a ring with a cycle tag between them. From this it follows that the driver gets the
events in the order of posting, that it sees a front exactly when there is one, and
that ERDP stays inside the current segment.
-/

import Bitnos.Xhci.EventRing
import Mathlib.Tactic.SplitIfs

namespace Bitnos.Xhci

open CycleRing PartialRun

/-! ### Addresses -/

/-- Clearing the low bits of an aligned address leaves it alone. -/
theorem clearBits_of_aligned {p : BitVec 64} (hp : p.toNat % 16 = 0) :
    clearBits p 0xf#64 = p := by
  have hmask : 0xf#64 = BitMask.low 64 4 := rfl
  apply BitVec.eq_of_getLsbD_eq
  intro i hi
  rw [hmask, getLsbD_clearBits_low p hi]
  by_cases hlow : i < 4
  · have hbit := Nat.testBit_mod_two_pow p.toNat 4 i
    rw [hp, Nat.zero_testBit, decide_eq_true hlow, Bool.true_and] at hbit
    rw [BitVec.getLsbD, ← hbit, Bool.false_and]
  · rw [decide_eq_false hlow, Bool.not_false, Bool.and_true]

/-- Flags in the low bits do not disturb the pointer. -/
theorem clearBits_or_flags (p : BitVec 64) (flags : BitVec 4) :
    clearBits (clearBits p 0xf#64 ||| flags.setWidth 64) 0xf#64 = clearBits p 0xf#64 := by
  have hmask : 0xf#64 = BitMask.low 64 4 := rfl
  apply BitVec.eq_of_getLsbD_eq
  intro i hi
  rw [hmask, getLsbD_clearBits_low _ hi, BitVec.getLsbD_or, BitVec.getLsbD_setWidth,
    getLsbD_clearBits_low p hi]
  by_cases hlow : i < 4
  · rw [decide_eq_true hlow, Bool.not_true, Bool.and_false, Bool.and_false]
  · rw [BitVec.getLsbD_of_ge flags i (by omega), Bool.and_false, Bool.or_false, Bool.and_assoc,
      Bool.and_self]

namespace SegmentTableEntry

variable {segment : SegmentTableEntry} {i j : ℕ}

theorem size_lt (segment : SegmentTableEntry) : segment.size < 2 ^ 16 := segment.segmentSize.isLt

theorem slot_succ (segment : SegmentTableEntry) (i : ℕ) :
    segment.slot (i + 1) = segment.slot i + 16#64 := by
  rw [slot, slot, Nat.mul_succ, BitVec.ofNat_add, BitVec.add_assoc]

theorem slot_zero (segment : SegmentTableEntry) : segment.slot 0 = segment.begin := by
  rw [slot, Nat.mul_zero, BitVec.add_zero]

theorem slot_inj (hi : i ≤ segment.size) (hj : j ≤ segment.size)
    (heq : segment.slot i = segment.slot j) : i = j := by
  have hsize := segment.size_lt
  have hnat := congrArg BitVec.toNat ((BitVec.add_right_inj segment.begin).mp heq)
  rw [BitVec.toNat_ofNat, BitVec.toNat_ofNat, Nat.mod_eq_of_lt (by omega),
    Nat.mod_eq_of_lt (by omega)] at hnat
  omega

theorem slot_aligned (hbase : segment.begin.toNat % 16 = 0) (i : ℕ) :
    (segment.slot i).toNat % 16 = 0 := by
  rw [slot, BitVec.toNat_add, BitVec.toNat_ofNat]
  omega

theorem mem_slots {p : BitVec 64} : p ∈ segment.slots ↔ ∃ i < segment.size, segment.slot i = p := by
  simp only [slots, List.mem_map, List.mem_range]

end SegmentTableEntry

/-! ### Segment tables -/

/-- A table of one or more segments, none of them empty, aligned to sixteen bytes and
pairwise disjoint. -/
structure SegmentTable where
  count : ℕ
  entry : ℕ → SegmentTableEntry
  count_pos : 0 < count
  size_pos : ∀ s < count, 0 < (entry s).size
  aligned : ∀ s < count, (entry s).begin.toNat % 16 = 0
  disjoint : ∀ s < count, ∀ s' < count, s ≠ s' →
    ∀ i < (entry s).size, ∀ i' < (entry s').size, (entry s).slot i ≠ (entry s').slot i'

namespace SegmentTable

variable (table : SegmentTable)

/-- The number of blocks of a segment. -/
def size (s : ℕ) : ℕ := (table.entry s).size

/-- The slots of the ring in the order of use. -/
def layout : Layout (BitVec 64) :=
  Cursor.layout table.count table.size (fun s i => (table.entry s).slot i) table.count_pos
    table.size_pos (by
      intro s hs i hi s' hs' i' hi' heq
      by_cases hsame : s = s'
      · subst hsame
        exact ⟨rfl, SegmentTableEntry.slot_inj (Nat.le_of_lt hi) (Nat.le_of_lt hi') heq⟩
      · exact absurd heq (table.disjoint s hs s' hs' hsame i hi i' hi'))

/-- The cursor after `k` slots. -/
def position (k : ℕ) : Cursor := Cursor.position table.count table.size k

/-- The table is the one the interrupter registers point to. -/
structure DescribedBy (m : Manager) : Prop where
  count : (m.intRegSet.erstsz &&& 0xffff#32).toNat = table.count
  entries : ∀ i < table.count,
    m.memory.entries (clearBits m.intRegSet.erstba 0x3f#64 + BitVec.ofNat 64 (16 * i)) =
      table.entry i

/-- The manager works on the table. -/
structure UsedBy (m : Manager) : Prop where
  erstSize : m.erstSize = table.count
  segment : ∀ i < table.count, m.segment i = table.entry i

/-- The manager stands at the cursor. -/
structure DriverAt (m : Manager) (c : Cursor) : Prop where
  erstIndex : m.erstIndex = c.segment
  pointer : m.readDequeuePointer = (table.entry c.segment).slot c.index
  producerCycle : m.producerCycle = if c.tag then 1#8 else 0#8

variable {table} {m : Manager} {c : Cursor}

theorem valid_position (k : ℕ) : (table.position k).Valid table.count table.size :=
  Cursor.valid_position table.count_pos table.size_pos k

theorem tag_layout (k : ℕ) : table.layout.tag k = (table.position k).tag := rfl

/-- In the first lap every position has tag 1. -/
theorem tag_of_lt_size {k : ℕ} (hk : k < table.layout.size) : table.layout.tag k = true := by
  obtain ⟨s, hs, i, hi, rfl⟩ := Cursor.exists_offset_add hk
  have hsize : ∀ s < table.count, 0 < table.size s := table.size_pos
  rw [tag_layout, position, Cursor.position_offset_add hsize hs hi]

/-- The size the manager sees is that of the table, as far as a cursor moves. -/
theorem UsedBy.advance (h : table.UsedBy m) (hc : c.Valid table.count table.size) :
    c.advance m.erstSize (fun i => (m.segment i).size) = c.advance table.count table.size := by
  unfold Cursor.advance
  simp only [h.erstSize, h.segment _ hc.segment_lt]
  rfl

theorem readDequeuePointer_write {p : BitVec 64} (hp : p.toNat % 16 = 0) :
    (m.writeDequeuePointer p).readDequeuePointer = p :=
  clearBits_of_aligned hp

/-! ### Initialize -/

/-- **Initialize.** Afterwards the manager works on the table, stands at its start and
has cleared every slot. -/
theorem managerInitialize_spec (h : table.DescribedBy m) :
    table.UsedBy m.managerInitialize ∧ table.DriverAt m.managerInitialize (.start true) ∧
      ∀ k, m.managerInitialize.memory.trbs (table.layout.slot k) = .zero := by
  have hzero := h.entries 0 table.count_pos
  unfold Manager.managerInitialize
  simp only [Manager.foldl_clearSegment]
  refine ⟨⟨h.count, h.entries⟩, ⟨rfl, ?_, rfl⟩, ?_⟩
  · have hbegin := table.aligned 0 table.count_pos
    rw [← hzero] at hbegin
    refine (readDequeuePointer_write hbegin).trans ?_
    exact (congrArg SegmentTableEntry.begin hzero).trans ((table.entry 0).slot_zero).symm
  · intro k
    have hvalid := table.valid_position k
    apply if_pos
    rw [List.mem_flatMap]
    refine ⟨(table.position k).segment, ?_, ?_⟩
    · rw [List.mem_range]
      exact h.count ▸ hvalid.segment_lt
    · have hslots := congrArg SegmentTableEntry.slots (h.entries _ hvalid.segment_lt)
      exact hslots ▸ SegmentTableEntry.mem_slots.mpr ⟨_, hvalid.index_lt, rfl⟩

/-! ### Front and Pop -/

theorem hasFront_iff (h : table.DriverAt m c) :
    m.hasFront = true ↔ m.front.tag = c.tag := by
  rw [Manager.hasFront, decide_eq_true_iff, h.producerCycle, ← TRB.cycleBit_eq_iff]
  cases c.tag <;> rfl

theorem pop_memory (m : Manager) : m.pop.memory = m.memory := by
  unfold Manager.pop
  dsimp only
  split_ifs <;> rfl

theorem UsedBy.pop (h : table.UsedBy m) : table.UsedBy m.pop := by
  unfold Manager.pop
  dsimp only
  split_ifs <;> exact ⟨h.erstSize, h.segment⟩

/-- Writing ERDP with the start of the current segment. -/
theorem driverAt_begin {s : ℕ} {tag : Bool} (huse : table.UsedBy m) (hs : s < table.count)
    (hindex : m.erstIndex = s) (hcycle : m.producerCycle = if tag then 1#8 else 0#8) :
    table.DriverAt (m.writeDequeuePointer (m.segment m.erstIndex).begin) ⟨s, 0, tag⟩ := by
  have hsegment : m.segment m.erstIndex = table.entry s := by rw [hindex, huse.segment s hs]
  refine ⟨hindex, ?_, hcycle⟩
  rw [hsegment, readDequeuePointer_write (table.aligned s hs), SegmentTableEntry.slot_zero]

/-- **Pop.** The manager moves like a cursor and leaves memory alone. -/
theorem DriverAt.pop (huse : table.UsedBy m) (hat : table.DriverAt m c)
    (hc : c.Valid table.count table.size) :
    table.DriverAt m.pop (c.advance table.count table.size) := by
  have hsegment : m.segment m.erstIndex = table.entry c.segment := by
    rw [hat.erstIndex, huse.segment _ hc.segment_lt]
  have hnext : m.readDequeuePointer + 16#64 = (table.entry c.segment).slot (c.index + 1) := by
    rw [hat.pointer, SegmentTableEntry.slot_succ]
  have haligned := table.aligned c.segment hc.segment_lt
  by_cases hindex : c.index + 1 < table.size c.segment
  · -- inside the segment
    have hne : (table.entry c.segment).slot (c.index + 1) ≠ (table.entry c.segment).cend := by
      intro heq
      have := SegmentTableEntry.slot_inj (Nat.le_of_lt hindex) (Nat.le_refl _) heq
      exact absurd this (Nat.ne_of_lt hindex)
    have hpop : m.pop = m.writeDequeuePointer ((table.entry c.segment).slot (c.index + 1)) := by
      rw [Manager.pop, hsegment, hnext, if_neg hne]
    rw [hpop, Cursor.advance, if_pos hindex]
    exact ⟨hat.erstIndex, readDequeuePointer_write (SegmentTableEntry.slot_aligned haligned _),
      hat.producerCycle⟩
  · have hcend : (table.entry c.segment).slot (c.index + 1) = (table.entry c.segment).cend := by
      have heq : c.index + 1 = table.size c.segment :=
        Nat.le_antisymm hc.index_lt (Nat.le_of_not_lt hindex)
      rw [heq]
      rfl
    rw [Manager.pop, hsegment, hnext, if_pos hcend, Cursor.advance, if_neg hindex]
    dsimp only
    by_cases hsegment : c.segment + 1 < table.count
    · -- on to the next segment
      have hne : m.erstIndex + 1 ≠ m.erstSize := by
        rw [hat.erstIndex, huse.erstSize]
        exact Nat.ne_of_lt hsegment
      rw [if_neg hne, if_pos hsegment]
      exact driverAt_begin (m := { m with erstIndex := m.erstIndex + 1 })
        ⟨huse.erstSize, huse.segment⟩ hsegment (congrArg (· + 1) hat.erstIndex) hat.producerCycle
    · -- wrap around: the expected cycle bit flips
      have heq : m.erstIndex + 1 = m.erstSize := by
        rw [hat.erstIndex, huse.erstSize]
        exact Nat.le_antisymm hc.segment_lt (Nat.le_of_not_lt hsegment)
      have hcycle : 1#8 - m.producerCycle = if (!c.tag) then 1#8 else 0#8 := by
        rw [hat.producerCycle]
        cases c.tag <;> rfl
      rw [if_pos heq, if_neg hsegment]
      exact driverAt_begin (m := { m with erstIndex := 0, producerCycle := 1#8 - m.producerCycle })
        ⟨huse.erstSize, huse.segment⟩ table.count_pos rfl hcycle

section

variable {k : ℕ} {log : List TRB}

theorem DriverAt.pop_position (huse : table.UsedBy m) (hat : table.DriverAt m (table.position k)) :
    table.DriverAt m.pop (table.position (k + 1)) := by
  rw [position, Cursor.position_succ]
  exact hat.pop huse (table.valid_position k)

theorem DriverAt.front_eq (hat : table.DriverAt m (table.position k)) :
    m.front = m.memory.trbs (table.layout.slot k) :=
  congrArg m.memory.trbs hat.pointer

/-- In a ring that holds a log, the manager sees a front exactly where the log goes on. -/
theorem DriverAt.hasFront_iff_lt (hat : table.DriverAt m (table.position k))
    (hholds : Holds table.layout TRB.tag m.memory.trbs log k) :
    m.hasFront = true ↔ k < log.length := by
  rw [hasFront_iff hat, hat.front_eq, ← tag_layout, hholds.tag_eq_iff]

end

/-! ### Posting -/

/-- Posting changes memory and the flags of ERDP only. -/
theorem UsedBy.post (h : table.UsedBy m) (p : BitVec 64) (trb : TRB) (erdp : BitVec 64) :
    table.UsedBy ((m.writeTrb p trb).writeDequeuePointer erdp) :=
  ⟨h.erstSize, h.segment⟩

theorem DriverAt.post (h : table.DriverAt m c) (p : BitVec 64) (trb : TRB) (flags : BitVec 4) :
    table.DriverAt ((m.writeTrb p trb).writeDequeuePointer
      (m.readDequeuePointer ||| flags.setWidth 64)) c :=
  ⟨h.erstIndex, (clearBits_or_flags m.intRegSet.erdp flags).trans h.pointer, h.producerCycle⟩

end SegmentTable

/-! ### The invariant -/

variable {table : SegmentTable} {s t : EventSystem}

/-- Both parties stand where the logs say, memory is the ring between them, and the
slots not yet released are those of the events not yet popped. -/
structure EventInv (table : SegmentTable) (s : EventSystem) : Prop where
  used : table.UsedBy s.manager
  driver : table.DriverAt s.manager (table.position s.popped.length)
  cursor : s.cursor = table.position s.posted.length
  holds : Holds table.layout TRB.tag s.manager.memory.trbs s.posted s.popped.length
  popped : s.popped = s.posted.take s.popped.length
  unreleased : s.unreleased =
    (List.range' s.popped.length (s.posted.length - s.popped.length)).map table.layout.slot
  saw : s.sawFront = true → s.popped.length < s.posted.length

namespace EventInv

theorem start {m : Manager} (hm : table.DescribedBy m) : EventInv table (.start m) := by
  obtain ⟨hused, hdriver, hclear⟩ := SegmentTable.managerInitialize_spec hm
  refine ⟨hused, hdriver, rfl, Holds.init ?_, rfl, rfl, fun hsaw => by cases hsaw⟩
  intro k hk
  -- the first lap of the cursor carries tag 1, a cleared block 0
  rw [SegmentTable.tag_of_lt_size hk]
  exact congrArg TRB.tag (hclear k)

/-- **Emptiness.** The driver sees a front exactly when an event waits. -/
theorem hasFront_iff (h : EventInv table s) :
    s.manager.hasFront = true ↔ s.popped.length < s.posted.length :=
  h.driver.hasFront_iff_lt h.holds

theorem enqueueSlot_eq (h : EventInv table s) :
    s.enqueueSlot = table.layout.slot s.posted.length := by
  have hvalid := table.valid_position s.posted.length
  rw [EventSystem.enqueueSlot, h.cursor, h.used.segment _ hvalid.segment_lt]
  rfl

/-- The front is the oldest event not yet popped. -/
theorem front_eq_getElem (h : EventInv table s) (hlt : s.popped.length < s.posted.length) :
    s.manager.front = s.posted[s.popped.length] := by
  rw [h.driver.front_eq]
  exact h.holds.pending _ hlt (Nat.le_refl _)

theorem post (h : EventInv table s) {event : TRB} {flags : BitVec 4}
    (hstep : eventStep s (.post event flags) = some t) : EventInv table t := by
  obtain ⟨hfull, rfl⟩ := eventStep_post hstep
  have hle := h.holds.taken_le
  have hroom : s.posted.length < s.popped.length + table.layout.size := by
    -- the slot to be written is not among those unreleased
    apply table.layout.lt_of_not_mem h.holds.length_le
    rw [← h.unreleased, ← h.enqueueSlot_eq]
    exact hfull
  refine ⟨h.used.post .., h.driver.post .., ?_, ?_, ?_, ?_, ?_⟩
  · -- the controller's cursor
    have hvalid := table.valid_position s.posted.length
    rw [List.length_append, List.length_singleton, SegmentTable.position, Cursor.position_succ]
    exact (congrArg (Cursor.advance _ _) h.cursor).trans (h.used.advance hvalid)
  · -- the block just written carries the tag of its position
    apply h.holds.post hroom
    · rw [TRB.tag_withCycle, h.cursor]
      rfl
    · rw [← h.enqueueSlot_eq]
      exact Function.update_self _ _ _
    · intro p hp
      rw [← h.enqueueSlot_eq] at hp
      exact Function.update_of_ne hp _ _
  · rw [List.take_append_of_le_length hle]
    exact h.popped
  · have hlength : (s.posted ++ [event.withCycle s.cursor.tag]).length - s.popped.length =
        s.posted.length - s.popped.length + 1 := by
      rw [List.length_append, List.length_singleton]
      omega
    rw [hlength, List.range'_1_concat, List.map_append, ← h.unreleased, h.enqueueSlot_eq]
    rw [Nat.add_sub_cancel' hle]
    rfl
  · intro hsaw
    rw [List.length_append]
    exact Nat.lt_add_right _ (h.saw hsaw)

omit table in
/-- What a posted event changes in the logs. -/
theorem logs_of_post {event : TRB} {flags : BitVec 4}
    (hstep : eventStep s (.post event flags) = some t) :
    t.popped = s.popped ∧ t.sawFront = s.sawFront ∧ t.posted.length = s.posted.length + 1 := by
  obtain ⟨-, rfl⟩ := eventStep_post hstep
  exact ⟨rfl, rfl, List.length_append⟩

omit table in
theorem logs_of_pop (hstep : eventStep s .pop = some t) :
    t.popped.length = s.popped.length + 1 ∧ t.posted = s.posted := by
  obtain ⟨-, rfl⟩ := eventStep_pop hstep
  exact ⟨List.length_append, rfl⟩

/-- An empty ring has room for an event. -/
theorem exists_post (h : EventInv table s) (hempty : s.posted.length ≤ s.popped.length)
    (event : TRB) (flags : BitVec 4) : ∃ t, eventStep s (.post event flags) = some t := by
  -- all slots are released when everything posted was popped
  have hfree : s.enqueueSlot ∉ s.unreleased := by
    rw [h.unreleased, Nat.sub_eq_zero_of_le hempty]
    exact List.not_mem_nil
  exact ⟨_, if_neg hfree⟩

/-- Moving ERDP to the next slot releases the one left behind. -/
theorem release_slot (h : EventInv table s) (hlt : s.popped.length < s.posted.length) :
    release (table.layout.slot (s.popped.length + 1)) s.unreleased =
      (List.range' (s.popped.length + 1) (s.posted.length - (s.popped.length + 1))).map
        table.layout.slot := by
  obtain ⟨n, hn⟩ : ∃ n, s.posted.length - s.popped.length = n + 1 :=
    ⟨s.posted.length - s.popped.length - 1, by omega⟩
  have hrest : s.posted.length - (s.popped.length + 1) = n := by omega
  rw [release, h.unreleased, hn, hrest, List.range'_succ, List.map_cons, List.tail_cons]
  -- the pointer is at the next slot still in use, if there is one
  cases n with
  | zero => rfl
  | succ n =>
    rw [List.range'_succ, List.map_cons, List.dropWhile_cons_of_neg (by simp)]

theorem pop (h : EventInv table s) (hstep : eventStep s .pop = some t) : EventInv table t := by
  obtain ⟨hsaw, rfl⟩ := eventStep_pop hstep
  have hlt := h.saw hsaw
  have hlength : (s.popped ++ [s.manager.front]).length = s.popped.length + 1 := by
    rw [List.length_append, List.length_singleton]
  have hdriver := h.driver.pop_position h.used
  have hholds := h.holds.take hlt
  -- what is popped is the oldest event posted and not yet popped
  have htake : s.popped ++ [s.manager.front] = s.posted.take (s.popped.length + 1) := by
    rw [List.take_add_one, ← h.popped, List.getElem?_eq_getElem hlt, h.front_eq_getElem hlt]
    rfl
  refine ⟨h.used.pop, ?_, h.cursor, ?_, ?_, ?_, ?_⟩
  · rw [hlength]
    exact hdriver
  · rw [hlength, SegmentTable.pop_memory]
    exact hholds
  · rw [hlength]
    exact htake
  · rw [hlength, hdriver.pointer]
    exact h.release_slot hlt
  · intro hfalse
    cases hfalse

theorem step (s : EventSystem) (a : EventAction) (t : EventSystem) (h : EventInv table s)
    (hstep : eventStep s a = some t) : EventInv table t := by
  cases a with
  | post event flags => exact h.post hstep
  | pop => exact h.pop hstep
  | front => exact Option.some.inj hstep ▸ h
  | hasFront =>
    obtain rfl := Option.some.inj hstep
    exact ⟨h.used, h.driver, h.cursor, h.holds, h.popped, h.unreleased, h.hasFront_iff.mp⟩

end EventInv

/-! ### First in, first out -/

/-- What was popped and what the slots not yet released hold is what was posted, in
order; a front is seen exactly when an event waits; and ERDP is a slot of the current
segment. -/
structure EventFifo (s : EventSystem) : Prop where
  in_order : s.popped ++ s.unreleased.map s.manager.memory.trbs = s.posted
  front_iff : s.manager.hasFront = true ↔ s.popped.length < s.posted.length
  inside : s.manager.erstIndex < s.manager.erstSize ∧
    s.manager.readDequeuePointer ∈ (s.manager.segment s.manager.erstIndex).slots

theorem EventInv.fifo (h : EventInv table s) : EventFifo s := by
  have hvalid := table.valid_position s.popped.length
  refine ⟨?_, h.hasFront_iff, ?_, ?_⟩
  -- the unreleased slots hold the rest of the log
  · have hpending := h.holds.map_slots
    rw [h.unreleased, List.map_map]
    calc s.popped ++ _ = s.posted.take s.popped.length ++ s.posted.drop s.popped.length :=
          congrArg₂ _ h.popped hpending
      _ = s.posted := List.take_append_drop _ _
  · rw [h.driver.erstIndex, h.used.erstSize]
    exact hvalid.segment_lt
  · rw [h.driver.erstIndex, h.used.segment _ hvalid.segment_lt, SegmentTableEntry.mem_slots]
    exact ⟨_, hvalid.index_lt, h.driver.pointer.symm⟩

/-- **FIFO agreement.** For every segment table and every order of steps of controller
and driver from the end of `Initialize` on, the event ring is first in, first out. -/
theorem event_ring_fifo {m : Manager} (hm : table.DescribedBy m) (actions : List EventAction) :
    Along eventStep EventFifo (.start m) actions :=
  along_of_invariant EventInv.step (fun _ h => h.fifo) (EventInv.start hm)

/-- A table of two segments, of one and of two blocks. -/
def twoSegments : SegmentTable where
  count := 2
  entry s := ⟨0x1000#64 + BitVec.ofNat 64 (0x1000 * s), BitVec.ofNat 16 (s + 1)⟩
  count_pos := by decide
  size_pos := by decide
  aligned := by decide
  disjoint := by decide +kernel

/-- A manager before `Initialize` whose registers point to the table at 0x4000. -/
def twoSegmentsManager : Manager where
  intRegSet := { erstsz := 2#32, erstba := 0x4000#64, erdp := 0#64 }
  memory :=
    { trbs _ := ⟨.replicate 4 0xffffffff#32⟩
      entries p := twoSegments.entry ((p.toNat - 0x4000) / 16) }
  producerCycle := 0#8
  erst := 0#64
  erstSize := 0
  erstIndex := 0

/-- The ring is filled, emptied by one and filled again, so that the controller is a
lap ahead. -/
def lapAhead : List EventAction :=
  [.post .zero 8#4, .post .zero 8#4, .post .zero 8#4, .hasFront, .pop, .post .zero 8#4, .hasFront,
    .pop, .hasFront, .pop, .hasFront, .pop]

theorem event_ring_fifo_twoSegments : twoSegments.DescribedBy twoSegmentsManager ∧
    (run eventStep (.start twoSegmentsManager) lapAhead).isSome = true ∧
    Along eventStep EventFifo (.start twoSegmentsManager) lapAhead :=
  have hdescribed : twoSegments.DescribedBy twoSegmentsManager := ⟨rfl, by decide +kernel⟩
  ⟨hdescribed, by decide +kernel, event_ring_fifo hdescribed lapAhead⟩

end Bitnos.Xhci
