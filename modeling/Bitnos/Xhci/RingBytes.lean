/-
# The event ring in bytes

The blocks and the segment table are bytes of one memory. The controller writes a block in
four words, the cycle bit with the last of them, and the driver may look at any time between.
What the driver gets are nevertheless the events as they were posted, and nothing but the
slots of the ring changes.
-/

import Bitnos.Libc
import Bitnos.Math.Simulation
import Bitnos.MemoryAccess
import Bitnos.Xhci.EventFifo

namespace Bitnos.Xhci

open CycleRing PartialRun

/-! ### Blocks -/

/-- The block at an address. -/
def readTrb (mem : Bytes.Memory 64) (p : BitVec 64) : TRB where
  dwords := .ofFn fun i => read32 mem (p + BitVec.ofNat 64 (4 * i.val))

/-- `dwords[i]` of the block at an address is written. -/
def writeDword (mem : Bytes.Memory 64) (p : BitVec 64) (i : Fin 4) (word : BitVec 32) :
    Bytes.Memory 64 :=
  write32 mem (p + BitVec.ofNat 64 (4 * i.val)) word

/-- The entry of a segment table at an address. -/
def readEntry (mem : Bytes.Memory 64) (p : BitVec 64) : SegmentTableEntry where
  segmentBaseAddress := read64 mem p
  segmentSize := Bytes.load mem (p + 8#64) 2

section Blocks

variable {mem mem' : Bytes.Memory 64} {p q : BitVec 64}

@[simp] theorem dword_readTrb (i : Fin 4) :
    (readTrb mem p).dword i = read32 mem (p + BitVec.ofNat 64 (4 * i.val)) := by
  simp only [TRB.dword, readTrb, Fin.getElem_fin, Vector.getElem_ofFn]

/-- A block depends on its sixteen bytes. -/
theorem readTrb_congr (h : ∀ j < 16, mem' (p + BitVec.ofNat 64 j) = mem (p + BitVec.ofNat 64 j)) :
    readTrb mem' p = readTrb mem p := by
  apply TRB.ext_dword
  intro i
  rw [dword_readTrb, dword_readTrb]
  apply Bytes.load_congr
  intro j hj
  rw [BitVec.add_assoc, ← BitVec.ofNat_add]
  exact h _ (by omega)

theorem readEntry_congr (h : ∀ j < 16, mem' (p + BitVec.ofNat 64 j) = mem (p + BitVec.ofNat 64 j)) :
    readEntry mem' p = readEntry mem p := by
  have hsize : Bytes.load mem' (p + BitVec.ofNat 64 8) 2 =
      Bytes.load mem (p + BitVec.ofNat 64 8) 2 := by
    apply Bytes.load_congr
    intro j hj
    rw [BitVec.add_assoc, ← BitVec.ofNat_add]
    exact h _ (by omega)
  have hbase : read64 mem' p = read64 mem p := Bytes.load_congr fun j hj => h j (by omega)
  rw [readEntry, readEntry, hbase]
  exact congrArg _ hsize

/-- What `memset` leaves is a block of zeros. -/
theorem readTrb_of_zero (h : ∀ j < 16, mem (p + BitVec.ofNat 64 j) = 0#8) :
    readTrb mem p = .zero := by
  apply TRB.ext_dword
  intro i
  have hzero : TRB.zero.dword i = 0#32 := by
    revert i
    decide
  rw [dword_readTrb, hzero, read32_eq_zero_iff]
  intro j hj
  rw [BitVec.add_assoc, ← BitVec.ofNat_add]
  exact h _ (by omega)

/-- A word of a block lies inside of it. -/
theorem writeDword_of_le (hp : 16 ≤ (q - p).toNat) (i : Fin 4) (word : BitVec 32) :
    writeDword mem p i word q = mem q := by
  have hi := i.isLt
  have hdist : (q - (p + BitVec.ofNat 64 (4 * i.val))).toNat = _ := Bytes.toNat_sub_add (by omega)
  rw [if_neg (by omega)] at hdist
  apply Bytes.store_of_le (n := 4)
  omega

theorem readTrb_writeDword_self (i : Fin 4) (word : BitVec 32) :
    readTrb (writeDword mem p i word) p = (readTrb mem p).setDword i word := by
  apply TRB.ext_dword
  intro j
  rw [TRB.dword_setDword, dword_readTrb, dword_readTrb, writeDword]
  split_ifs with hij
  · rw [hij, read32_write32_self]
  · have hne : i.val ≠ j.val := fun heq => hij (Fin.ext heq)
    exact read32_write32_of_disjoint word (by omega) (by omega) (by omega)

/-- A block elsewhere is not disturbed. -/
theorem readTrb_writeDword_of_ne (hp : 2 ^ 4 ∣ p.toNat) (hq : 2 ^ 4 ∣ q.toNat)
    (hne : q ≠ p) (i : Fin 4)
    (word : BitVec 32) : readTrb (writeDword mem p i word) q = readTrb mem q :=
  readTrb_congr fun _ hj =>
    writeDword_of_le (Bytes.le_distance_of_aligned (by decide) hq hp hne hj) i word

end Blocks

/-! ### The manager -/

/-- `eventring::Manager`, with the registers and the bytes behind its pointers. -/
structure ByteManager where
  intRegSet : InterrupterRegSet
  mem : Bytes.Memory 64
  producerCycle : BitVec 8
  erst : BitVec 64
  erstSize : ℕ
  erstIndex : ℕ

namespace ByteManager

def readDequeuePointer (m : ByteManager) : BitVec 64 := clearBits m.intRegSet.erdp 0xf#64

def writeDequeuePointer (m : ByteManager) (p : BitVec 64) : ByteManager :=
  { m with intRegSet := { m.intRegSet with erdp := p } }

/-- `erst_[i]` -/
def segment (m : ByteManager) (i : ℕ) : SegmentTableEntry :=
  readEntry m.mem (m.erst + BitVec.ofNat 64 (16 * i))

/-- `memset(segment.begin(), 0, sizeof(TRB) * segment.Size())` -/
def clearSegment (m : ByteManager) (segment : SegmentTableEntry) : ByteManager :=
  { m with mem := memset m.mem segment.begin 0#32 (16#64 * BitVec.ofNat 64 segment.size) }

/-- `Manager::Initialize` up to the loop over the segments. -/
def reload (m : ByteManager) : ByteManager :=
  let erstba := m.intRegSet.erstba
  let m := { m with
    intRegSet := { m.intRegSet with erstba }
    producerCycle := 1#8
    erst := clearBits erstba 0x3f#64
    erstSize := (m.intRegSet.erstsz &&& 0xffff#32).toNat
    erstIndex := 0 }
  m.writeDequeuePointer (m.segment 0).begin

/-- `Manager::Initialize`. The entry of a segment is read when its turn comes, after others have been
cleared. -/
def managerInitialize (m : ByteManager) : ByteManager :=
  (List.range m.reload.erstSize).foldl (fun m i => m.clearSegment (m.segment i)) m.reload

def front (m : ByteManager) : TRB := readTrb m.mem m.readDequeuePointer

def hasFront (m : ByteManager) : Bool := m.front.cycleBit.toNat = m.producerCycle.toNat

def pop (m : ByteManager) : ByteManager :=
  let p := m.readDequeuePointer + 16#64
  let currentSegment := m.segment m.erstIndex
  if p = currentSegment.cend then
    let erstIndex := m.erstIndex + 1
    let m :=
      if erstIndex = m.erstSize then
        { m with erstIndex := 0, producerCycle := 1#8 - m.producerCycle }
      else
        { m with erstIndex }
    m.writeDequeuePointer (m.segment m.erstIndex).begin
  else
    m.writeDequeuePointer p

/-- The manager over a memory of blocks and entries. -/
def withMemory (m : ByteManager) (memory : Memory) : Manager where
  intRegSet := m.intRegSet
  memory := memory
  producerCycle := m.producerCycle
  erst := m.erst
  erstSize := m.erstSize
  erstIndex := m.erstIndex

/-- The manager over what the bytes hold at each address. -/
def view (m : ByteManager) : Manager := m.withMemory ⟨readTrb m.mem, readEntry m.mem⟩

variable {m : ByteManager} {memory : Memory}

theorem mem_pop (m : ByteManager) : m.pop.mem = m.mem := by
  unfold pop
  dsimp only
  split_ifs <;> rfl

theorem erst_pop (m : ByteManager) : m.pop.erst = m.erst := by
  unfold pop
  dsimp only
  split_ifs <;> rfl

/-- Popping looks at the segment table only. -/
theorem pop_withMemory (hsegment : ∀ i < m.erstSize, (m.withMemory memory).segment i = m.segment i)
    (hindex : m.erstIndex < m.erstSize) : (m.withMemory memory).pop = m.pop.withMemory memory := by
  have hcurrent : (m.withMemory memory).segment (m.withMemory memory).erstIndex =
      m.segment m.erstIndex :=
    hsegment _ hindex
  have hpointer : (m.withMemory memory).readDequeuePointer = m.readDequeuePointer := rfl
  -- which branch `Pop` takes depends on the table and the pointer alone
  by_cases hend : m.readDequeuePointer + 16#64 = (m.segment m.erstIndex).cend
  · rw [Manager.pop, pop, hcurrent, hpointer, if_pos hend, if_pos hend]
    dsimp only
    by_cases hlap : m.erstIndex + 1 = m.erstSize
    · have hfirst := hsegment 0 (Nat.zero_lt_of_lt hindex)
      have hlap' : (m.withMemory memory).erstIndex + 1 = (m.withMemory memory).erstSize := hlap
      rw [if_pos hlap', if_pos hlap]
      exact congrArg ({ m with erstIndex := 0, producerCycle := 1#8 - m.producerCycle }.withMemory
        memory).writeDequeuePointer (congrArg SegmentTableEntry.begin hfirst)
    · have hnext := hsegment (m.erstIndex + 1) (by omega)
      have hlap' : ¬ (m.withMemory memory).erstIndex + 1 = (m.withMemory memory).erstSize := hlap
      rw [if_neg hlap', if_neg hlap]
      exact congrArg ({ m with erstIndex := m.erstIndex + 1 }.withMemory memory).writeDequeuePointer
        (congrArg SegmentTableEntry.begin hnext)
  · rw [Manager.pop, pop, hcurrent, hpointer, if_neg hend, if_neg hend]
    rfl

end ByteManager

/-! ### The ring in memory -/

namespace SegmentTable

variable (table : SegmentTable)

/-- A byte that is in no segment. -/
def Outside (p : BitVec 64) : Prop :=
  ∀ s < table.count, 16 * table.size s ≤ (p - (table.entry s).begin).toNat

/-- The table lies at an address, clear of its segments. -/
structure InMemory (mem : Bytes.Memory 64) (erst : BitVec 64) : Prop where
  entries : ∀ i < table.count, readEntry mem (erst + BitVec.ofNat 64 (16 * i)) = table.entry i
  apart : ∀ j < 16 * table.count, table.Outside (erst + BitVec.ofNat 64 j)

variable {table} {mem mem' : Bytes.Memory 64} {erst p : BitVec 64} {s i j k : ℕ}

/-- What happens to the segments leaves the table alone. -/
theorem InMemory.congr (h : table.InMemory mem erst) (hmem : ∀ p, table.Outside p → mem' p = mem p) :
    table.InMemory mem' erst := by
  refine ⟨fun i hi => ?_, h.apart⟩
  rw [← h.entries i hi]
  apply readEntry_congr
  intro j hj
  apply hmem
  rw [BitVec.add_assoc, ← BitVec.ofNat_add]
  exact h.apart _ (by omega)

theorem slot_sub_begin (hi : i < table.size s) (hj : j < 16) :
    ((table.entry s).slot i + BitVec.ofNat 64 j - (table.entry s).begin).toNat = 16 * i + j := by
  have hsize : table.size s < 2 ^ 16 := (table.entry s).size_lt
  rw [SegmentTableEntry.slot, BitVec.add_assoc, ← BitVec.ofNat_add]
  exact Bytes.toNat_add_sub le_rfl (by omega)

/-- A byte outside is not one of a block. -/
theorem Outside.le_distance (hp : table.Outside p) (k : ℕ) :
    16 ≤ (p - table.layout.slot k).toNat := by
  have hvalid := table.valid_position k
  have hindex := hvalid.index_lt
  have hout := hp _ hvalid.segment_lt
  have hsize : table.size (table.position k).segment < 2 ^ 16 := SegmentTableEntry.size_lt _
  have hdist : (p - table.layout.slot k).toNat = _ :=
    @Bytes.toNat_sub_add 64 (16 * (table.position k).index)
      (table.entry (table.position k).segment).begin p (by omega)
  rw [hdist, if_neg (by omega)]
  omega

theorem aligned_slot (k : ℕ) : 2 ^ 4 ∣ (table.layout.slot k).toNat :=
  Nat.dvd_of_mod_eq_zero
    (SegmentTableEntry.slot_aligned (table.aligned _ (table.valid_position k).segment_lt) _)

theorem InMemory.segment {m : ByteManager} (h : table.InMemory m.mem m.erst) (hi : i < table.count) :
    m.segment i = table.entry i := h.entries i hi

/-- Clearing the first segments. The table stays as it was, so each of them is found in it. -/
theorem InMemory.foldl_clearSegment {m : ByteManager} (h : table.InMemory m.mem m.erst) {n : ℕ}
    (hn : n ≤ table.count) : ∃ mem,
      (List.range n).foldl (fun m i => m.clearSegment (m.segment i)) m = { m with mem } ∧
        (∀ p, table.Outside p → mem p = m.mem p) ∧
        ∀ s < n, ∀ i < table.size s, ∀ j < 16,
          mem ((table.entry s).slot i + BitVec.ofNat 64 j) = 0#8 := by
  induction n with
  | zero => exact ⟨m.mem, rfl, fun p _ => rfl, fun s hs => absurd hs (Nat.not_lt_zero s)⟩
  | succ n ih =>
    obtain ⟨mem, hfold, hout, hzero⟩ := ih (Nat.le_of_lt hn)
    -- the segments cleared so far held no part of the table
    have hsegment : ({ m with mem } : ByteManager).segment n = table.entry n :=
      (h.congr hout).entries n hn
    have hsize : (16#64 * BitVec.ofNat 64 (table.entry n).size).toNat = 16 * table.size n := by
      have hlt := (table.entry n).size_lt
      rw [BitVec.toNat_mul, BitVec.toNat_ofNat, BitVec.toNat_ofNat, size]
      omega
    refine ⟨memset mem (table.entry n).begin 0#32 (16#64 * BitVec.ofNat 64 (table.entry n).size),
      ?_, ?_, ?_⟩
    · rw [List.range_succ, List.foldl_append, hfold, List.foldl_cons, List.foldl_nil, hsegment]
      rfl
    · intro p hp
      rw [memset_apply, hsize, if_neg (Nat.not_lt.mpr (hp n hn)), hout p hp]
    · intro s hs i hi j hj
      rw [memset_apply, hsize]
      split_ifs with hcleared
      · rfl
      · rcases Nat.lt_succ_iff_lt_or_eq.mp hs with hs | rfl
        · exact hzero s hs i hi j hj
        · rw [slot_sub_begin hi hj] at hcleared
          omega

end SegmentTable

/-! ### Driver and controller -/

/-- The event ring at work, in bytes. `writing` is the event the controller is writing to the
slot at its cursor, if any, and the word that comes next; the rest is as in `EventSystem`. -/
structure ByteEventSystem where
  manager : ByteManager
  cursor : Cursor
  unreleased : List (BitVec 64)
  writing : Option (TRB × ℕ)
  sawFront : Bool
  posted : List TRB
  popped : List TRB

inductive ByteEventAction
  /-- The controller begins to post an event. -/
  | post (event : TRB)
  /-- It writes the next word; with the last one come the flags in the low bits of ERDP. -/
  | word (flags : BitVec 4)
  | hasFront
  | pop

namespace ByteEventSystem

/-- The state right after `Initialize`. -/
def start (m : ByteManager) : ByteEventSystem where
  manager := m.managerInitialize
  cursor := .start true
  unreleased := []
  writing := none
  sawFront := false
  posted := []
  popped := []

/-- The slot the controller writes. -/
def enqueueSlot (s : ByteEventSystem) : BitVec 64 :=
  (s.manager.segment s.cursor.segment).slot s.cursor.index

/-- Memory after a word of a block was written. -/
def writeWord (s : ByteEventSystem) (event : TRB) (i : Fin 4) : ByteManager :=
  { s.manager with
    mem := writeDword s.manager.mem s.enqueueSlot i ((event.withCycle s.cursor.tag).dword i) }

end ByteEventSystem

def byteEventStep (s : ByteEventSystem) : ByteEventAction → Option ByteEventSystem
  | .post event =>
    if s.writing.isSome ∨ s.unreleased.contains s.enqueueSlot then none
    else some { s with writing := some (event, 0) }
  | .word flags =>
    s.writing.bind fun (event, i) =>
      if hi : i < 4 then
        let m := s.writeWord event ⟨i, hi⟩
        if i = 3 then
          some { s with
            manager := m.writeDequeuePointer (m.readDequeuePointer ||| flags.setWidth 64)
            cursor := s.cursor.advance s.manager.erstSize fun i => (s.manager.segment i).size
            unreleased := s.unreleased ++ [s.enqueueSlot]
            writing := none
            posted := s.posted ++ [event.withCycle s.cursor.tag] }
        else some { s with manager := m, writing := some (event, i + 1) }
      else none
  | .hasFront => some { s with sawFront := s.manager.hasFront }
  | .pop =>
    if s.sawFront then
      some { s with
        manager := s.manager.pop
        unreleased := release s.manager.pop.readDequeuePointer s.unreleased
        sawFront := false
        popped := s.popped ++ [s.manager.front] }
    else none

/-- The state of the ring of blocks explains the one in bytes. The block at the controller's cursor
may be half written; it is there when its last word is, which is also the one with the cycle bit. -/
structure Explains (table : SegmentTable) (mem₀ : Bytes.Memory 64) (erst : BitVec 64)
    (b : ByteEventSystem) (s : EventSystem) : Prop where
  manager : s.manager = b.manager.withMemory s.manager.memory
  cursor : s.cursor = b.cursor
  unreleased : s.unreleased = b.unreleased
  sawFront : s.sawFront = b.sawFront
  posted : s.posted = b.posted
  popped : s.popped = b.popped
  erst : b.manager.erst = erst
  outside : ∀ p, table.Outside p → b.manager.mem p = mem₀ p
  blocks : ∀ k, b.writing = none ∨ table.layout.slot k ≠ s.enqueueSlot →
    s.manager.memory.trbs (table.layout.slot k) = readTrb b.manager.mem (table.layout.slot k)
  free : b.writing ≠ none → s.enqueueSlot ∉ s.unreleased
  written : ∀ event i, b.writing = some (event, i) → ∀ j : Fin 4, j < i →
    (readTrb b.manager.mem s.enqueueSlot).dword j = (event.withCycle s.cursor.tag).dword j
  lastWord : (readTrb b.manager.mem s.enqueueSlot).dword 3 =
    (s.manager.memory.trbs s.enqueueSlot).dword 3

namespace Explains

variable {table : SegmentTable} {mem₀ : Bytes.Memory 64} {erst : BitVec 64} {b c : ByteEventSystem}
  {s : EventSystem}

theorem segment (h : Explains table mem₀ erst b s) (hmem : table.InMemory mem₀ erst) {i : ℕ}
    (hi : i < table.count) : b.manager.segment i = table.entry i :=
  (h.erst.symm ▸ hmem.congr h.outside : table.InMemory b.manager.mem b.manager.erst).segment hi

/-- Both managers work on the table. -/
theorem usedBy (h : Explains table mem₀ erst b s) (hmem : table.InMemory mem₀ erst)
    (hs : EventInv table s) :
    table.UsedBy b.manager.view :=
  ⟨(congrArg Manager.erstSize h.manager).symm.trans hs.used.erstSize,
    fun _ hi => h.segment hmem hi⟩

theorem enqueueSlot (h : Explains table mem₀ erst b s) (hmem : table.InMemory mem₀ erst)
    (hs : EventInv table s) : b.enqueueSlot = s.enqueueSlot := by
  have hvalid := table.valid_position s.posted.length
  rw [ByteEventSystem.enqueueSlot, EventSystem.enqueueSlot, ← h.cursor, hs.cursor,
    h.segment hmem hvalid.segment_lt, hs.used.segment _ hvalid.segment_lt]

/-- The cycle bits are the same everywhere, that of a half written block included. -/
theorem cycleBit (h : Explains table mem₀ erst b s) (k : ℕ) :
    (readTrb b.manager.mem (table.layout.slot k)).cycleBit =
      (s.manager.memory.trbs (table.layout.slot k)).cycleBit := by
  by_cases hslot : table.layout.slot k = s.enqueueSlot
  · rw [hslot]
    exact congrArg (·.extractLsb' 0 1) h.lastWord
  · rw [h.blocks k (.inr hslot)]

/-- The driver reads at the slot of the oldest event. -/
theorem readDequeuePointer (h : Explains table mem₀ erst b s) (hs : EventInv table s) :
    b.manager.readDequeuePointer = table.layout.slot s.popped.length :=
  (congrArg Manager.readDequeuePointer h.manager).symm.trans hs.driver.pointer

theorem hasFront (h : Explains table mem₀ erst b s) (hs : EventInv table s) :
    b.manager.hasFront = s.manager.hasFront := by
  have hcycle : s.manager.producerCycle = b.manager.producerCycle :=
    congrArg Manager.producerCycle h.manager
  rw [ByteManager.hasFront, Manager.hasFront, hcycle, ByteManager.front, h.readDequeuePointer hs,
    h.cycleBit, hs.driver.front_eq]

/-- What the driver pops was written as a whole. -/
theorem front (h : Explains table mem₀ erst b s) (hs : EventInv table s)
    (hlt : s.popped.length < s.posted.length) : b.manager.front = s.manager.front := by
  rw [ByteManager.front, h.readDequeuePointer hs, hs.driver.front_eq]
  refine (h.blocks _ ?_).symm
  rcases Option.eq_none_or_eq_some b.writing with hnone | ⟨writing, hsome⟩
  · exact .inl hnone
  · -- the controller writes to a slot that is none of those waiting
    right
    intro heq
    apply h.free (by rw [hsome]; exact Option.some_ne_none _)
    rw [← heq, hs.unreleased]
    exact List.mem_map_of_mem (List.mem_range'_1.mpr ⟨le_rfl, by omega⟩)

/-! ### Steps -/

theorem post (h : Explains table mem₀ erst b s) (hmem : table.InMemory mem₀ erst)
    (hs : EventInv table s)
    {event : TRB} (hstep : byteEventStep b (.post event) = some c) :
    Explains table mem₀ erst c s := by
  rw [byteEventStep] at hstep
  split_ifs at hstep with hguard
  -- no block is half written, so all of them are explained, and no word is yet
  obtain ⟨hidle, hfree⟩ := not_or.mp hguard
  obtain rfl := Option.some.inj hstep
  have hnone : b.writing = none := Option.not_isSome_iff_eq_none.mp hidle
  refine { h with
    blocks := fun k _ => h.blocks k (.inl hnone)
    free := fun _ => ?_
    written := ?_ }
  · rw [h.unreleased, ← h.enqueueSlot hmem hs, ← List.contains_iff_mem]
    exact hfree
  · intro event' i hwriting j hj
    obtain ⟨-, rfl⟩ := Prod.mk.inj (Option.some.inj hwriting)
    exact absurd hj (Nat.not_lt_zero j)

section Words

variable {event : TRB} {i : Fin 4}

/-- A word written changes nothing outside the ring. -/
theorem outside_writeWord (h : Explains table mem₀ erst b s) (hmem : table.InMemory mem₀ erst)
    (hs : EventInv table s) (p : BitVec 64) (hp : table.Outside p) :
    (b.writeWord event i).mem p = mem₀ p := by
  have hslot := hp.le_distance s.posted.length
  rw [← hs.enqueueSlot_eq, ← h.enqueueSlot hmem hs] at hslot
  exact (writeDword_of_le hslot i _).trans (h.outside p hp)

/-- It changes no other block. -/
theorem readTrb_writeWord_of_ne (h : Explains table mem₀ erst b s) (hmem : table.InMemory mem₀ erst)
    (hs : EventInv table s) {k : ℕ} (hk : table.layout.slot k ≠ s.enqueueSlot) :
    readTrb (b.writeWord event i).mem (table.layout.slot k) =
      s.manager.memory.trbs (table.layout.slot k) := by
  rw [h.blocks k (.inr hk), ByteEventSystem.writeWord, h.enqueueSlot hmem hs]
  have halign := table.aligned_slot s.posted.length
  rw [← hs.enqueueSlot_eq] at halign
  exact readTrb_writeDword_of_ne halign (table.aligned_slot k) hk i _

/-- The block that is written, after one more word. -/
theorem readTrb_writeWord (h : Explains table mem₀ erst b s) (hmem : table.InMemory mem₀ erst)
    (hs : EventInv table s) : readTrb (b.writeWord event i).mem s.enqueueSlot =
      (readTrb b.manager.mem s.enqueueSlot).setDword i ((event.withCycle s.cursor.tag).dword i) := by
  rw [ByteEventSystem.writeWord, h.enqueueSlot hmem hs, h.cursor]
  exact readTrb_writeDword_self i _

/-- Words before the last one go unnoticed. -/
theorem word (h : Explains table mem₀ erst b s) (hmem : table.InMemory mem₀ erst)
    (hs : EventInv table s)
    (hwriting : b.writing = some (event, i.val)) (hi : i.val ≠ 3) :
    Explains table mem₀ erst
      { b with manager := b.writeWord event i, writing := some (event, i.val + 1) } s := by
  refine { h with
    outside := h.outside_writeWord hmem hs
    blocks := fun k hk => ?_
    free := fun _ => h.free (by rw [hwriting]; exact Option.some_ne_none _)
    written := ?_
    lastWord := ?_ }
  · refine (h.readTrb_writeWord_of_ne hmem hs (hk.resolve_left ?_)).symm
    exact Option.some_ne_none _
  · intro event' i' hnext j hj
    obtain ⟨rfl, rfl⟩ := Prod.mk.inj (Option.some.inj hnext)
    dsimp only
    rw [h.readTrb_writeWord hmem hs, TRB.dword_setDword]
    split_ifs with hij
    · rw [hij]
    · exact h.written event i hwriting j (by grind)
  · dsimp only
    rw [h.readTrb_writeWord hmem hs, TRB.dword_setDword, if_neg fun heq => hi (congrArg Fin.val heq)]
    exact h.lastWord

/-- The last word completes the block, and the event is posted. -/
theorem lastWord_step (h : Explains table mem₀ erst b s) (hmem : table.InMemory mem₀ erst)
    (hs : EventInv table s) (hwriting : b.writing = some (event, 3)) (flags : BitVec 4)
    (hstep : byteEventStep b (.word flags) = some c) :
    ∃ t, eventStep s (.post event flags) = some t ∧ Explains table mem₀ erst c t := by
  -- the guard was passed when the event was begun; its slot has not been taken since
  have hfree : s.enqueueSlot ∉ s.unreleased :=
    h.free (by rw [hwriting]; exact Option.some_ne_none _)
  rw [byteEventStep, hwriting, Option.bind_some] at hstep
  dsimp only at hstep
  rw [dif_pos (by decide), if_pos rfl] at hstep
  obtain rfl := Option.some.inj hstep
  -- the first three words are there already
  have hblock : readTrb (b.writeWord event 3).mem s.enqueueSlot = event.withCycle s.cursor.tag := by
    apply TRB.ext_dword
    intro j
    rw [h.readTrb_writeWord hmem hs, TRB.dword_setDword]
    split_ifs with hj
    · rw [hj]
    · exact h.written event 3 hwriting j (by omega)
  -- both controllers move on by the same table
  have hcursor : s.cursor.advance s.manager.erstSize (fun i => (s.manager.segment i).size) =
      b.cursor.advance b.manager.erstSize fun i => (b.manager.segment i).size := by
    have hvalid := table.valid_position s.posted.length
    rw [← hs.cursor] at hvalid
    rw [hs.used.advance hvalid, ← h.cursor]
    exact ((h.usedBy hmem hs).advance hvalid).symm
  -- now no block is half written any more
  have hblocks : ∀ k,
      Function.update s.manager.memory.trbs s.enqueueSlot (event.withCycle s.cursor.tag)
      (table.layout.slot k) = readTrb (b.writeWord event 3).mem (table.layout.slot k) := by
    intro k
    by_cases hk : table.layout.slot k = s.enqueueSlot
    · rw [hk, Function.update_self, hblock]
    · rw [Function.update_of_ne hk, h.readTrb_writeWord_of_ne hmem hs hk]
  have hpost : eventStep s (.post event flags) = some _ := if_neg hfree
  refine ⟨_, hpost, {
    manager := congrArg (fun m : Manager => (m.writeTrb s.enqueueSlot (event.withCycle
      s.cursor.tag)).writeDequeuePointer (m.readDequeuePointer ||| flags.setWidth 64)) h.manager
    cursor := hcursor
    unreleased := ?_
    sawFront := h.sawFront
    posted := ?_
    popped := h.popped
    erst := h.erst
    outside := h.outside_writeWord hmem hs
    blocks := fun k _ => hblocks k
    free := fun hne => absurd rfl hne
    written := fun _ _ hnone => by cases hnone
    lastWord := ?_ }⟩
  · rw [h.unreleased, h.enqueueSlot hmem hs]
  · rw [h.posted, h.cursor]
  · rw [(hs.post hpost).enqueueSlot_eq]
    exact congrArg (TRB.dword · 3) (hblocks _).symm

end Words

theorem hasFront_step (h : Explains table mem₀ erst b s) (hs : EventInv table s) :
    Explains table mem₀ erst { b with sawFront := b.manager.hasFront }
      { s with sawFront := s.manager.hasFront } :=
  { h with sawFront := (h.hasFront hs).symm }

theorem pop (h : Explains table mem₀ erst b s) (hmem : table.InMemory mem₀ erst)
    (hs : EventInv table s)
    (hstep : byteEventStep b .pop = some c) :
    ∃ t, eventStep s .pop = some t ∧ Explains table mem₀ erst c t := by
  rw [byteEventStep] at hstep
  split_ifs at hstep with hsaw
  rw [← h.sawFront] at hsaw
  obtain rfl := Option.some.inj hstep
  have hcount : b.manager.erstSize = table.count := (h.usedBy hmem hs).erstSize
  -- both drivers move on by the same table
  have hpopped : s.manager.pop = b.manager.pop.withMemory s.manager.memory := by
    have hvalid := table.valid_position s.popped.length
    have hindex : b.manager.erstIndex = s.manager.erstIndex :=
      (congrArg Manager.erstIndex h.manager).symm
    rw [← ByteManager.pop_withMemory, ← h.manager]
    · intro i hi
      rw [hcount] at hi
      rw [← h.manager, hs.used.segment i hi, h.segment hmem hi]
    · rw [hindex, hs.driver.erstIndex, hcount]
      exact hvalid.segment_lt
  have hmemory : s.manager.pop.memory = s.manager.memory := SegmentTable.pop_memory s.manager
  have hpop : eventStep s .pop = some _ := if_pos hsaw
  -- the slot being written stays where it is
  have hslot := (hs.pop hpop).enqueueSlot_eq.trans hs.enqueueSlot_eq.symm
  refine ⟨_, hpop, {
    manager := ?_
    cursor := h.cursor
    unreleased := ?_
    sawFront := rfl
    posted := h.posted
    popped := ?_
    erst := b.manager.erst_pop.trans h.erst
    outside := ?_
    blocks := ?_
    free := ?_
    written := ?_
    lastWord := ?_ }⟩
  · dsimp only
    rw [hmemory, hpopped]
  · rw [h.unreleased, hpopped]
    rfl
  · rw [h.popped, h.front hs (hs.saw hsaw)]
  · rw [b.manager.mem_pop]
    exact h.outside
  · rw [hslot, b.manager.mem_pop, hmemory]
    exact h.blocks
  · -- what is released is no longer waiting
    rw [hslot]
    exact fun hwriting hmem => h.free hwriting
      (((List.dropWhile_sublist _).trans (List.tail_sublist _)).subset hmem)
  · rw [hslot, b.manager.mem_pop]
    exact h.written
  · rw [hslot, b.manager.mem_pop, hmemory]
    exact h.lastWord

/-- **Refinement.** The ring of blocks follows whatever happens to the one in bytes. -/
theorem follows (hmem : table.InMemory mem₀ erst) :
    Follows byteEventStep eventStep (EventInv table) (Explains table mem₀ erst) := by
  intro b s a c h hs hstep
  cases a with
  | post event => exact exists_run_stutter (h.post hmem hs hstep)
  | word flags =>
    obtain ⟨⟨event, i⟩, hwriting, -⟩ := Option.bind_eq_some_iff.mp hstep
    by_cases hlast : i = 3
    · subst hlast
      obtain ⟨t, ht, hexplains⟩ := h.lastWord_step hmem hs hwriting flags hstep
      exact exists_run_step ht hexplains
    · rw [byteEventStep, hwriting, Option.bind_some] at hstep
      dsimp only at hstep
      split_ifs at hstep with hi
      obtain rfl := Option.some.inj hstep
      exact exists_run_stutter (h.word (i := ⟨i, hi⟩) hmem hs hwriting hlast)
  | hasFront =>
    obtain rfl := Option.some.inj hstep
    exact exists_run_step (b := .hasFront) rfl (h.hasFront_step hs)
  | pop =>
    obtain ⟨t, ht, hexplains⟩ := h.pop hmem hs hstep
    exact exists_run_step ht hexplains

/-- The blocks waiting are in memory as a whole. -/
theorem map_unreleased (h : Explains table mem₀ erst b s) (hs : EventInv table s) :
    b.unreleased.map (readTrb b.manager.mem) = s.unreleased.map s.manager.memory.trbs := by
  rw [← h.unreleased]
  apply List.map_congr_left
  intro p hp
  have hwaiting := hp
  rw [hs.unreleased] at hp
  obtain ⟨k, -, rfl⟩ := List.mem_map.mp hp
  refine (h.blocks k ?_).symm
  by_cases hidle : b.writing = none
  · exact .inl hidle
  · exact .inr fun heq => h.free hidle (heq ▸ hwaiting)

end Explains

/-! ### Initialize -/

/-- The registers point to the table in memory. -/
structure SegmentTable.LaidOut (table : SegmentTable) (m : ByteManager) : Prop where
  count : (m.intRegSet.erstsz &&& 0xffff#32).toNat = table.count
  inMemory : table.InMemory m.mem (clearBits m.intRegSet.erstba 0x3f#64)

section Start

variable {table : SegmentTable} {m : ByteManager}

theorem SegmentTable.LaidOut.describedBy (hm : table.LaidOut m) : table.DescribedBy m.view :=
  ⟨hm.count, hm.inMemory.entries⟩

/-- `Initialize` clears the ring and leaves all other bytes as they are. -/
theorem Explains.start (hm : table.LaidOut m) :
    Explains table m.mem (clearBits m.intRegSet.erstba 0x3f#64) (.start m) (.start m.view) := by
  obtain ⟨-, -, hclear⟩ := SegmentTable.managerInitialize_spec hm.describedBy
  have hmem : table.InMemory m.reload.mem m.reload.erst := hm.inMemory
  have hcount : m.reload.erstSize = table.count := hm.count
  obtain ⟨mem, hfold, hout, hzero⟩ := hmem.foldl_clearSegment hcount.le
  have hstart : m.managerInitialize = { m.reload with mem } := hfold
  have hblocks : ∀ k, (Manager.managerInitialize m.view).memory.trbs (table.layout.slot k) =
      readTrb mem (table.layout.slot k) := by
    intro k
    have hvalid := table.valid_position k
    rw [hclear k]
    exact (readTrb_of_zero fun j hj =>
      hzero _ (hcount ▸ hvalid.segment_lt) _ hvalid.index_lt j hj).symm
  have hslot := (EventInv.start hm.describedBy).enqueueSlot_eq
  rw [ByteEventSystem.start, hstart]
  refine {
    manager := ?_
    cursor := rfl
    unreleased := rfl
    sawFront := rfl
    posted := rfl
    popped := rfl
    erst := rfl
    outside := hout
    blocks := fun k _ => hblocks k
    free := fun hne => absurd rfl hne
    written := fun _ _ hnone => by cases hnone
    lastWord := ?_ }
  · rw [EventSystem.start]
    dsimp only
    rw [Manager.managerInitialize, Manager.foldl_clearSegment]
    rfl
  · rw [hslot]
    exact congrArg (TRB.dword · 3) (hblocks _).symm

end Start

/-- **The event ring in bytes.** Wherever the segment table lies, clear of its segments, and however
the words the controller writes interleave with the steps of the driver: what was popped, and then
what the slots not yet released hold, is what was posted, in order; the driver sees a front exactly
when a posted event waits, never a block half written; and no byte outside the segments changes. -/
theorem event_ring_bytes {table : SegmentTable} {m : ByteManager} (hm : table.LaidOut m)
    {actions : List ByteEventAction} {b : ByteEventSystem}
    (hrun : run byteEventStep (.start m) actions = some b) :
    b.popped ++ b.unreleased.map (readTrb b.manager.mem) = b.posted ∧
      (b.manager.hasFront = true ↔ b.popped.length < b.posted.length) ∧
      ∀ p, table.Outside p → b.manager.mem p = m.mem p := by
  obtain ⟨s, -, h, hs⟩ := (Explains.follows hm.inMemory).run EventInv.step (.start hm)
    (EventInv.start hm.describedBy) hrun
  have hfifo := hs.fifo
  refine ⟨?_, ?_, h.outside⟩
  · rw [h.map_unreleased hs, ← h.popped, ← h.posted]
    exact hfifo.in_order
  · rw [h.hasFront hs, ← h.popped, ← h.posted]
    exact hfifo.front_iff

/-- A manager before `Initialize` whose registers point to a table of two segments at 0x4000. -/
def twoSegmentsBytes : ByteManager where
  intRegSet := { erstsz := 2#32, erstba := 0x4000#64, erdp := 0#64 }
  mem :=
    let mem := write64 (write64 (fun _ => 0xff#8) 0x4000#64 0x1000#64) 0x4008#64 1#64
    write64 (write64 mem 0x4010#64 0x2000#64) 0x4018#64 2#64
  producerCycle := 0#8
  erst := 0#64
  erstSize := 0
  erstIndex := 0

/-- The driver looks between the words of a block, and pops it when it is complete. -/
def lookBetween : List ByteEventAction :=
  [.post .zero, .word 8#4, .word 8#4, .hasFront, .word 8#4, .word 8#4, .hasFront, .pop]

theorem event_ring_bytes_twoSegments : twoSegments.LaidOut twoSegmentsBytes ∧
    ∃ b, run byteEventStep (.start twoSegmentsBytes) lookBetween = some b ∧
      b.popped ++ b.unreleased.map (readTrb b.manager.mem) = b.posted ∧
      (b.manager.hasFront = true ↔ b.popped.length < b.posted.length) ∧
      ∀ p, twoSegments.Outside p → b.manager.mem p = twoSegmentsBytes.mem p := by
  have hlaid : twoSegments.LaidOut twoSegmentsBytes := by
    refine ⟨rfl, ?_, ?_⟩
    · decide +kernel
    · unfold SegmentTable.Outside
      decide +kernel
  obtain ⟨b, hrun⟩ := Option.isSome_iff_exists.mp
    (by decide +kernel : (run byteEventStep (.start twoSegmentsBytes) lookBetween).isSome = true)
  exact ⟨hlaid, b, hrun, event_ring_bytes hlaid hrun⟩

end Bitnos.Xhci
