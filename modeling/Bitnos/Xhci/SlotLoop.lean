/-
# The slot loop

The xhci command looks at the device contexts of the controller one after another and
counts the slots along. The array of context addresses has an entry for each slot, and
entry 0 in front of them belongs to no slot. The loop visits as many entries as there
are slots, starting with entry 0, so it is one entry early at both ends.
-/

import Bitnos.Xhci.CommandLoop
import Bitnos.Xhci.Controller

namespace Bitnos.Xhci

/-- The loop over the context addresses, with `slot_id` before the first of them. The body of an
iteration works on a state and may not come to an end. -/
def slotLoop {σ : Type} (body : ℤ → BitVec 64 → σ → Option σ) :
    ℤ → List (BitVec 64) → σ → Option σ
  | _, [], s => some s
  | slotId, dcaddr :: rest, s =>
    let slotId := slotId + 1
    if dcaddr = 0#64 then
      slotLoop body slotId rest s
    else
      (body slotId dcaddr s).bind fun t => slotLoop body slotId rest t

section Views

variable (words : BitVec 64 → BitVec 64) (op : OperationalRegisters)

/-- An entry of the device context base address array. -/
def dcbaaEntry (i : ℕ) : BitVec 64 := words ((deviceContextAddresses op).element 8 i)

/-- The context addresses the loop goes over. -/
def dcaddrs : List (BitVec 64) := ((deviceContextAddresses op).elements 8).map words

/-- A slot with its context, if an entry of the array is one. -/
def slotContext (i : ℕ) : Option (ℤ × BitVec 64) :=
  if dcbaaEntry words op i = 0#64 then none else some (i, dcbaaEntry words op i)

/-- The enabled slots that have a context, in order. -/
def dueSlots : List (ℤ × BitVec 64) :=
  (List.range' 1 (maxSlotsEnabled op).toNat).filterMap (slotContext words op)

/-- The loop does for every body what going through the enabled slots with a context does. -/
def VisitsDueSlots : Prop :=
  ∀ (σ : Type) (body : ℤ → BitVec 64 → σ → Option σ) (s : σ),
    slotLoop body (-1) (dcaddrs words op) s =
      (dueSlots words op).foldlM (fun t slot => body slot.1 slot.2 t) s

end Views

/-! ### What the loop visits -/

/-- The contexts the loop hands to its body, with their slot numbers. -/
def slotVisits : ℤ → List (BitVec 64) → List (ℤ × BitVec 64)
  | _, [] => []
  | slotId, dcaddr :: rest =>
    if dcaddr = 0#64 then slotVisits (slotId + 1) rest
    else (slotId + 1, dcaddr) :: slotVisits (slotId + 1) rest

theorem slotLoop_eq_foldlM {σ : Type} (body : ℤ → BitVec 64 → σ → Option σ) (slotId : ℤ)
    (entries : List (BitVec 64)) (s : σ) :
    slotLoop body slotId entries s =
      (slotVisits slotId entries).foldlM (fun t slot => body slot.1 slot.2 t) s := by
  induction entries generalizing slotId s with
  | nil => rfl
  | cons dcaddr rest ih =>
    rw [slotLoop, slotVisits]
    split_ifs with hnull
    · exact ih (slotId + 1) s
    · rw [List.foldlM_cons]
      exact congrArg _ (funext fun t => ih (slotId + 1) t)

/-- The commands of the loop are those for the slots it visits. -/
theorem commandsFrom_eq_map (inputContext : BitVec 64) (slotId : ℤ) (entries : List (BitVec 64)) :
    commandsFrom inputContext (slotId + 1) entries =
      (slotVisits slotId entries).map fun slot => commandTrb inputContext slot.1 := by
  induction entries generalizing slotId with
  | nil => rfl
  | cons dcaddr rest ih =>
    rw [commandsFrom, slotVisits]
    split_ifs with hnull
    · exact ih (slotId + 1)
    · rw [List.map_cons, ih (slotId + 1)]

section

variable {words : BitVec 64 → BitVec 64} {op : OperationalRegisters} {i : ℕ}

theorem fst_of_slotContext {slot : ℤ × BitVec 64} (h : slotContext words op i = some slot) :
    slot.1 = i := by
  rw [slotContext] at h
  split_ifs at h
  rw [← Option.some.inj h]

theorem slotContext_eq_none_iff :
    slotContext words op i = none ↔ dcbaaEntry words op i = 0#64 := by
  rw [slotContext]
  split_ifs with hnull <;> simp [hnull]

theorem slotVisits_range' (k n : ℕ) :
    slotVisits ((k : ℤ) - 1) ((List.range' k n).map (dcbaaEntry words op)) =
      (List.range' k n).filterMap (slotContext words op) := by
  induction n generalizing k with
  | zero => rfl
  | succ n ih =>
    have hslot : (k : ℤ) - 1 + 1 = ((k + 1 : ℕ) : ℤ) - 1 := by omega
    have hk : ((k + 1 : ℕ) : ℤ) - 1 = k := by omega
    rw [List.range'_succ, List.map_cons, slotVisits, List.filterMap_cons, hslot, ih, slotContext]
    split_ifs with hnull
    · rfl
    · rw [hk]

/-- The loop visits the entries below the number of enabled slots. -/
theorem slotVisits_dcaddrs : slotVisits (-1) (dcaddrs words op) =
    (List.range' 0 (maxSlotsEnabled op).toNat).filterMap (slotContext words op) := by
  rw [← slotVisits_range', dcaddrs, ArrayWrapper.elements, List.map_map,
    size_deviceContextAddresses, List.range_eq_range']
  rfl

/-- The context of entry 0 is not among those of the slots. -/
theorem notMem_filterMap_slotContext {slot : ℤ × BitVec 64} (hslot : slotContext words op 0 = some slot)
    (n : ℕ) : slot ∉ (List.range' 1 n).filterMap (slotContext words op) := by
  intro hmem
  obtain ⟨i, hi, hcontext⟩ := List.mem_filterMap.mp hmem
  have hnumber := (fst_of_slotContext hslot).symm.trans (fst_of_slotContext hcontext)
  rw [List.mem_range'_1] at hi
  omega

/-- The entries below `m` and the entries from 1 to `m` give the same slots exactly when neither
entry 0 nor entry `m` gives one. -/
theorem filterMap_slotContext_iff (m : ℕ) :
    (List.range' 0 m).filterMap (slotContext words op) =
        (List.range' 1 m).filterMap (slotContext words op) ↔
      m = 0 ∨ dcbaaEntry words op 0 = 0#64 ∧ dcbaaEntry words op m = 0#64 := by
  cases m with
  | zero => simp
  | succ n =>
    -- both lists go through the entries from 1 to `n`
    have hfront : (List.range' 0 (n + 1)).filterMap (slotContext words op) =
        (slotContext words op 0).toList ++ (List.range' 1 n).filterMap (slotContext words op) := by
      rw [List.range'_succ, List.filterMap_cons]
      cases slotContext words op 0 <;> rfl
    have hback : (List.range' 1 (n + 1)).filterMap (slotContext words op) =
        (List.range' 1 n).filterMap (slotContext words op) ++
          (slotContext words op (n + 1)).toList := by
      rw [List.range'_1_concat, List.filterMap_append, Nat.add_comm 1 n, List.filterMap_cons]
      cases slotContext words op (n + 1) <;> rfl
    rw [← slotContext_eq_none_iff, ← slotContext_eq_none_iff]
    constructor
    · intro heq
      right
      have hfirst : slotContext words op 0 = none := by
        by_contra hsome
        obtain ⟨slot, hslot⟩ := Option.ne_none_iff_exists'.mp hsome
        apply notMem_filterMap_slotContext hslot (n + 1)
        rw [← heq, hfront, hslot]
        exact List.mem_cons_self
      rw [hfront, hback, hfirst] at heq
      exact ⟨hfirst, Option.toList_eq_nil_iff.mp (List.self_eq_append_right.mp heq)⟩
    · rintro (hzero | ⟨hfirst, hend⟩)
      · exact absurd hzero (Nat.succ_ne_zero n)
      · rw [hfront, hback, hfirst, hend]
        exact (List.append_nil _).symm

end

/-- A loop that notes what it is given gives it back. -/
theorem foldlM_note (slots noted : List (ℤ × BitVec 64)) :
    slots.foldlM (fun t slot => some (t ++ [(slot.1, slot.2)])) noted = some (noted ++ slots) := by
  induction slots generalizing noted with
  | nil => rw [List.append_nil]; rfl
  | cons slot slots ih =>
    rw [List.foldlM_cons]
    exact (ih _).trans (by rw [List.append_assoc]; rfl)

/-- The loop does what it should for every body exactly when it visits the slots it should. -/
theorem visitsDueSlots_iff_slotVisits (words : BitVec 64 → BitVec 64) (op : OperationalRegisters) :
    VisitsDueSlots words op ↔ slotVisits (-1) (dcaddrs words op) = dueSlots words op := by
  constructor
  · intro h
    have hnoted := h _ (fun slotId dcaddr noted => some (noted ++ [(slotId, dcaddr)])) []
    rw [slotLoop_eq_foldlM, foldlM_note, foldlM_note] at hnoted
    exact Option.some.inj hnoted
  · intro h σ body s
    rw [slotLoop_eq_foldlM, h]

/-- **The slot loop.** It visits the enabled slots that have a context, each under its own number,
exactly when no slot is enabled, or entry 0 and the entry of the last slot are both null. -/
theorem visitsDueSlots_iff (words : BitVec 64 → BitVec 64) (op : OperationalRegisters) :
    VisitsDueSlots words op ↔
      (maxSlotsEnabled op).toNat = 0 ∨
        dcbaaEntry words op 0 = 0#64 ∧
          dcbaaEntry words op (maxSlotsEnabled op).toNat = 0#64 := by
  rw [visitsDueSlots_iff_slotVisits, slotVisits_dcaddrs, dueSlots, filterMap_slotContext_iff]

/-- One slot is enabled and has its context at 0x9000. The loop looks at entry 0 only. -/
theorem not_visitsDueSlots_oneSlot :
    let words : BitVec 64 → BitVec 64 := fun p => if p = 0x8008#64 then 0x9000#64 else 0#64
    let op : OperationalRegisters := ⟨0x8000#64, 1#32⟩
    dueSlots words op = [(1, 0x9000#64)] ∧ slotVisits (-1) (dcaddrs words op) = [] ∧
      ¬ VisitsDueSlots words op := by
  intro words op
  have hdue : dueSlots words op = [(1, 0x9000#64)] := by decide +kernel
  have hvisits : slotVisits (-1) (dcaddrs words op) = [] := by decide +kernel
  refine ⟨hdue, hvisits, fun h => ?_⟩
  rw [visitsDueSlots_iff_slotVisits, hdue, hvisits] at h
  cases h

end Bitnos.Xhci
