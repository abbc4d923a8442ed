/-
# Rings with a cycle tag

A producer and a consumer share a ring of slots and no counter. Each entry carries
one bit, the tag of the lap it was written in, and tags alternate from lap to lap.
The consumer takes the slot before it for filled when its entry has the tag of the
consumer's own lap: what an earlier lap left there has the opposite one.

Positions are numbered without end, in the order in which entries are written. A
ring of several segments is laid out by a cursor that runs through them.
-/

import Mathlib.Algebra.BigOperators.Intervals
import Mathlib.Data.Nat.Periodic
import Mathlib.Logic.Function.Iterate

namespace CycleRing

variable {ι α : Type*}

/-! ### Layouts -/

/-- The slot of each position and the tag written there. A slot recurs after `size`
positions, with the opposite tag, and not before. -/
structure Layout (ι : Type*) where
  size : ℕ
  size_pos : 0 < size
  slot : ℕ → ι
  tag : ℕ → Bool
  slot_add : ∀ k, slot (k + size) = slot k
  tag_add : ∀ k, tag (k + size) = !tag k
  slot_ne : ∀ j k, j < k → k < j + size → slot j ≠ slot k

/-- The memory of a ring in which `log` was written and the first `taken` entries of
it were taken: entries not yet taken are in place, and a slot that is free holds the
tag of an earlier lap. -/
structure Holds (ring : Layout ι) (tagOf : α → Bool) (memory : ι → α) (log : List α)
    (taken : ℕ) : Prop where
  taken_le : taken ≤ log.length
  length_le : log.length ≤ taken + ring.size
  pending : ∀ k (hk : k < log.length), taken ≤ k → memory (ring.slot k) = log[k]
  tagged : ∀ k (hk : k < log.length), tagOf log[k] = ring.tag k
  stale : ∀ k, log.length ≤ k → k < taken + ring.size →
    tagOf (memory (ring.slot k)) = !ring.tag k

namespace Holds

variable {ring : Layout ι} {tagOf : α → Bool} {memory memory' : ι → α} {log : List α}
  {taken : ℕ} {a : α}

/-- A ring whose slots all hold the tag opposite to the first lap is empty. -/
theorem init (hstale : ∀ k < ring.size, tagOf (memory (ring.slot k)) = !ring.tag k) :
    Holds ring tagOf memory [] 0 where
  taken_le := Nat.le_refl _
  length_le := Nat.zero_le _
  pending k hk := absurd hk (Nat.not_lt_zero k)
  tagged k hk := absurd hk (Nat.not_lt_zero k)
  stale k _ hlt := hstale k (by omega)

/-- Write an entry into the next slot, which is free. -/
theorem post (h : Holds ring tagOf memory log taken) (hroom : log.length < taken + ring.size)
    (htag : tagOf a = ring.tag log.length) (hnew : memory' (ring.slot log.length) = a)
    (hold : ∀ i, i ≠ ring.slot log.length → memory' i = memory i) :
    Holds ring tagOf memory' (log ++ [a]) taken := by
  refine ⟨?_, ?_, ?_, ?_, ?_⟩
  · rw [List.length_append]
    exact h.taken_le.trans (Nat.le_add_right _ _)
  · rw [List.length_append, List.length_singleton]
    omega
  · intro k hk hle
    -- the new entry is in place, the pending ones are in other slots
    by_cases hlast : k = log.length
    · subst hlast
      rw [hnew, List.getElem_concat_length rfl]
    · rw [List.length_append, List.length_singleton] at hk
      have hlt : k < log.length := by omega
      rw [List.getElem_append_left hlt, ← h.pending k hlt hle]
      apply hold
      exact ring.slot_ne k log.length hlt (by omega)
  · intro k hk
    by_cases hlast : k = log.length
    · subst hlast
      rw [List.getElem_concat_length rfl, htag]
    · rw [List.length_append, List.length_singleton] at hk
      have hlt : k < log.length := by omega
      rw [List.getElem_append_left hlt, h.tagged k hlt]
  · intro k hle hlt
    rw [List.length_append, List.length_singleton] at hle
    have htaken := h.taken_le
    -- the slot just written comes round again only behind the free ones
    rw [hold _ (ring.slot_ne log.length k (by omega) (by omega)).symm]
    exact h.stale k (by omega) hlt

/-- Take the oldest entry. Its slot is free from then on, and what it still holds is
the tag of the lap just left. -/
theorem take (h : Holds ring tagOf memory log taken) (hlt : taken < log.length) :
    Holds ring tagOf memory log (taken + 1) where
  taken_le := hlt
  length_le := by have := h.length_le; omega
  pending k hk hle := h.pending k hk (by omega)
  tagged := h.tagged
  stale k hle hk := by
    -- the slot just freed is met again one lap later, with the opposite tag
    by_cases hlast : k = taken + ring.size
    · subst hlast
      rw [ring.slot_add, ring.tag_add, h.pending taken hlt (Nat.le_refl _), h.tagged taken hlt,
        Bool.not_not]
    · exact h.stale k hle (by omega)

/-- **Emptiness.** The tag in the consumer's slot is that of its lap exactly when an
entry is there to be taken. -/
theorem tag_eq_iff (h : Holds ring tagOf memory log taken) :
    tagOf (memory (ring.slot taken)) = ring.tag taken ↔ taken < log.length := by
  constructor
  · intro htag
    by_contra hempty
    -- nothing was written in this lap, so the slot has the tag of the lap before
    rw [h.stale taken (by omega) (Nat.lt_add_of_pos_right ring.size_pos)] at htag
    exact Bool.not_ne_self _ htag
  · intro hlt
    rw [h.pending taken hlt (Nat.le_refl _), h.tagged taken hlt]

/-- The slots from the consumer's to the producer's hold what was written and not yet
taken. -/
theorem map_slots (h : Holds ring tagOf memory log taken) :
    (List.range' taken (log.length - taken)).map (fun k => memory (ring.slot k)) =
      log.drop taken := by
  apply List.ext_getElem
  · rw [List.length_map, List.length_range', List.length_drop]
  · intro i hi hi'
    rw [List.length_drop] at hi'
    rw [List.getElem_map, List.getElem_range', Nat.one_mul, List.getElem_drop]
    exact h.pending (taken + i) (by omega) (Nat.le_add_right _ _)

end Holds

/-- A slot is free exactly when it is not among those written and not yet taken. -/
theorem Layout.lt_of_not_mem (ring : Layout ι) {taken length : ℕ} (hle : length ≤ taken + ring.size)
    (hfree : ring.slot length ∉ (List.range' taken (length - taken)).map ring.slot) :
    length < taken + ring.size := by
  by_contra hfull
  -- a full ring: the next slot is that of the oldest entry
  obtain rfl : length = taken + ring.size := by omega
  apply hfree
  rw [ring.slot_add, List.mem_map]
  refine ⟨taken, List.mem_range'_1.mpr ?_, rfl⟩
  have := ring.size_pos
  omega

/-! ### Segments -/

/-- Where a party stands in a ring of several segments, and its tag. -/
structure Cursor where
  segment : ℕ
  index : ℕ
  tag : Bool
  deriving DecidableEq

namespace Cursor

/-- The start of the first segment. -/
def start (tag : Bool) : Cursor where
  segment := 0
  index := 0
  tag := tag

/-- The same place in the other lap. -/
def flip (c : Cursor) : Cursor := { c with tag := !c.tag }

variable (count : ℕ) (size : ℕ → ℕ)

/-- Move to the next slot. The tag changes at the wrap of the last segment. -/
def advance (c : Cursor) : Cursor :=
  if c.index + 1 < size c.segment then { c with index := c.index + 1 }
  else if c.segment + 1 < count then ⟨c.segment + 1, 0, c.tag⟩
  else start !c.tag

/-- The cursor after `k` moves. -/
def position (k : ℕ) : Cursor := (advance count size)^[k] (start true)

/-- The number of slots before a segment. -/
def offset (s : ℕ) : ℕ := ∑ j ∈ Finset.range s, size j

/-- The cursor stands on a slot. -/
structure Valid (c : Cursor) : Prop where
  segment_lt : c.segment < count
  index_lt : c.index < size c.segment

variable {count size} {c : Cursor} {s i : ℕ} {tag : Bool}

theorem offset_succ (s : ℕ) : offset size (s + 1) = size s + offset size s := by
  rw [offset, Finset.sum_range_succ, Nat.add_comm]
  rfl

theorem advance_flip : advance count size c.flip = (advance count size c).flip := by
  unfold advance flip
  by_cases hindex : c.index + 1 < size c.segment
  · rw [if_pos hindex, if_pos hindex]
  rw [if_neg hindex, if_neg hindex]
  by_cases hsegment : c.segment + 1 < count
  · rw [if_pos hsegment, if_pos hsegment]
  · rw [if_neg hsegment, if_neg hsegment]
    rfl

theorem position_succ (k : ℕ) :
    position count size (k + 1) = advance count size (position count size k) :=
  Function.iterate_succ_apply' _ _ _

theorem iterate_index (hi : i < size s) : (advance count size)^[i] ⟨s, 0, tag⟩ = ⟨s, i, tag⟩ := by
  induction i with
  | zero => rfl
  | succ i ih =>
    rw [Function.iterate_succ_apply', ih (Nat.lt_of_succ_lt hi), advance, if_pos hi]

section Positive

variable (hcount : 0 < count) (hsize : ∀ s < count, 0 < size s)
include hcount hsize

theorem Valid.advance (h : Valid count size c) : Valid count size (advance count size c) := by
  unfold Cursor.advance
  by_cases hindex : c.index + 1 < size c.segment
  · rw [if_pos hindex]
    exact ⟨h.segment_lt, hindex⟩
  rw [if_neg hindex]
  by_cases hsegment : c.segment + 1 < count
  · rw [if_pos hsegment]
    exact ⟨hsegment, hsize _ hsegment⟩
  · rw [if_neg hsegment]
    exact ⟨hcount, hsize 0 hcount⟩

theorem valid_position (k : ℕ) : Valid count size (position count size k) := by
  induction k with
  | zero => exact ⟨hcount, hsize 0 hcount⟩
  | succ k ih =>
    rw [position_succ]
    exact ih.advance hcount hsize

omit hcount in
theorem iterate_segment (hs : s < count) :
    (Cursor.advance count size)^[size s] ⟨s, 0, tag⟩ =
      if s + 1 < count then ⟨s + 1, 0, tag⟩ else start !tag := by
  obtain ⟨n, hn⟩ : ∃ n, size s = n + 1 := ⟨size s - 1, by have := hsize s hs; omega⟩
  rw [hn, Function.iterate_succ_apply', iterate_index (by omega), Cursor.advance,
    if_neg (by simp [hn])]

omit hcount in
theorem iterate_offset (hs : s < count) :
    (Cursor.advance count size)^[offset size s] (start tag) = ⟨s, 0, tag⟩ := by
  induction s with
  | zero => rfl
  | succ s ih =>
    rw [offset_succ, Function.iterate_add_apply, ih (by omega),
      iterate_segment hsize (by omega), if_pos hs]

theorem iterate_lap :
    (Cursor.advance count size)^[offset size count] (start tag) = start !tag := by
  obtain ⟨n, rfl⟩ : ∃ n, count = n + 1 := ⟨count - 1, by omega⟩
  rw [offset_succ, Function.iterate_add_apply, iterate_offset hsize (by omega),
    iterate_segment hsize (by omega), if_neg (by omega)]

theorem position_add (k : ℕ) :
    position count size (k + offset size count) = (position count size k).flip := by
  -- moving on and changing the tag commute, so the second lap mirrors the first
  have hflip : ∀ k c, (Cursor.advance count size)^[k] (flip c) =
      ((Cursor.advance count size)^[k] c).flip := by
    intro k
    induction k with
    | zero => exact fun _ => rfl
    | succ k ih =>
      intro c
      rw [Function.iterate_succ_apply', ih, advance_flip, Function.iterate_succ_apply']
  rw [position, Function.iterate_add_apply, iterate_lap hcount hsize]
  exact hflip k (start true)

omit hcount in
theorem position_offset_add (hs : s < count) (hi : i < size s) :
    position count size (offset size s + i) = ⟨s, i, true⟩ := by
  rw [position, Nat.add_comm, Function.iterate_add_apply, iterate_offset hsize hs, iterate_index hi]

end Positive

/-- Every number below the total is that of a slot of some segment. -/
theorem exists_offset_add {k : ℕ} (hk : k < offset size count) :
    ∃ s < count, ∃ i < size s, k = offset size s + i := by
  induction count with
  | zero => exact absurd hk (Nat.not_lt_zero k)
  | succ n ih =>
    by_cases hlt : k < offset size n
    · obtain ⟨s, hs, i, hi, heq⟩ := ih hlt
      exact ⟨s, Nat.lt_succ_of_lt hs, i, hi, heq⟩
    · rw [offset_succ] at hk
      exact ⟨n, Nat.lt_succ_self n, k - offset size n, by omega, by omega⟩

/-- The place of a cursor, whatever its tag. -/
def place (c : Cursor) : ℕ × ℕ := (c.segment, c.index)

/-- Positions that are not a whole number of laps apart are different places. -/
theorem place_ne (hcount : 0 < count) (hsize : ∀ s < count, 0 < size s) {j k : ℕ} (hlt : j < k)
    (hk : k < j + offset size count) :
    (position count size j).place ≠ (position count size k).place := by
  have hperiodic : Function.Periodic (fun n => (position count size n).place)
      (offset size count) := by
    intro n
    simp only [position_add hcount hsize]
    rfl
  have hpos : 0 < offset size count := by omega
  -- compare the two places within the first lap
  rw [← hperiodic.map_mod_nat j, ← hperiodic.map_mod_nat k]
  obtain ⟨s, hs, i, hi, hj⟩ := exists_offset_add (Nat.mod_lt j hpos)
  obtain ⟨s', hs', i', hi', hk'⟩ := exists_offset_add (Nat.mod_lt k hpos)
  rw [hj, hk', position_offset_add hsize hs hi, position_offset_add hsize hs' hi']
  intro heq
  obtain ⟨rfl, rfl⟩ := Prod.mk.inj heq
  -- equal remainders: the distance is a multiple of the lap
  have hdvd : offset size count ∣ k - j := Nat.dvd_of_mod_eq_zero
    (Nat.sub_mod_eq_zero_of_mod_eq (hk'.trans hj.symm))
  have hle := Nat.le_of_dvd (by omega) hdvd
  omega

/-- The ring of `count` segments whose slots have the given addresses. -/
def layout (count : ℕ) (size : ℕ → ℕ) (address : ℕ → ℕ → ι) (hcount : 0 < count)
    (hsize : ∀ s < count, 0 < size s)
    (hdistinct : ∀ s < count, ∀ i < size s, ∀ s' < count, ∀ i' < size s',
      address s i = address s' i' → s = s' ∧ i = i') : Layout ι where
  size := offset size count
  size_pos := by
    obtain ⟨n, rfl⟩ : ∃ n, count = n + 1 := ⟨count - 1, by omega⟩
    rw [offset_succ]
    have := hsize n (by omega)
    omega
  slot k := address (position count size k).segment (position count size k).index
  tag k := (position count size k).tag
  slot_add k := by rw [position_add hcount hsize]; rfl
  tag_add k := by rw [position_add hcount hsize]; rfl
  -- equal addresses are equal places, which recur after a whole lap only
  slot_ne j k hlt hk heq := by
    have hj := valid_position hcount hsize j
    have hk' := valid_position hcount hsize k
    obtain ⟨hsegment, hindex⟩ := hdistinct _ hj.segment_lt _ hj.index_lt _ hk'.segment_lt _
      hk'.index_lt heq
    exact place_ne hcount hsize hlt hk (Prod.ext hsegment hindex)

end Cursor

end CycleRing
