/-
# Updates of the interrupt descriptor table

What calls of `SetIDTEntry` do to a table. For entries of the table the last call for
an entry decides what is printed about it, and no call touches the fourth word of an
entry. For other indices the bounds check decides, which is made with numbers that wrap
around.
-/

import Bitnos.Math.LastWriter
import Bitnos.DescTable

namespace Bitnos

open Bytes (Memory)

/-! ### Sequences of calls -/

/-- Memory after a call. -/
def IDTCall.perform (idtr : DescriptorTableRegister) (mem : Memory 64) (call : IDTCall) :
    Memory 64 :=
  (setIDTEntry idtr call.index call.offset call.attr call.selector mem).2

/-- Memory after calls one after another. -/
def setIDTEntries (idtr : DescriptorTableRegister) (calls : List IDTCall) (mem : Memory 64) :
    Memory 64 :=
  calls.foldl (IDTCall.perform idtr) mem

/-- The last call for an entry. -/
def lastCall (calls : List IDTCall) (i : ℕ) : Option IDTCall :=
  LastWriter.last (fun call => call.index.toNat) calls i

section Calls

variable {idtr : DescriptorTableRegister} {n i : ℕ} {mem : Memory 64} {calls : List IDTCall}
  {call : IDTCall}

theorem lastCall_snoc : lastCall (calls ++ [call]) i =
    if call.index.toNat = i then some call else lastCall calls i :=
  LastWriter.last_concat

/-- A call for an entry of the table writes that entry. -/
theorem IDTCall.perform_eq (hlimit : idtr.limit.toNat + 1 = 16 * n) (hcall : call.index.toNat < n) :
    call.perform idtr mem = putIDTEntry idtr.base call.index.toNat
      (idtWord0 call.offset call.selector) (idtWord1 call.offset call.attr)
      (idtWord2 call.offset) mem := by
  have hlt := idtr.limit.isLt
  have hmod : call.index.toNat % 2 ^ 60 = call.index.toNat := Nat.mod_eq_of_lt (by omega)
  rw [perform, setIDTEntry_of_le (by omega), hmod]

/-- Such a call changes the first three words of its entry only. -/
theorem IDTCall.perform_of_ne (hlimit : idtr.limit.toNat + 1 = 16 * n)
    (hcall : call.index.toNat < n) (hi : i < n) {k : ℕ} (hk : k < 16)
    (hout : call.index.toNat ≠ i ∨ 12 ≤ k) :
    call.perform idtr mem (idtr.base + BitVec.ofNat 64 (16 * i + k)) =
      mem (idtr.base + BitVec.ofNat 64 (16 * i + k)) := by
  have hlt := idtr.limit.isLt
  rw [perform_eq hlimit hcall]
  exact putIDTEntry_of_offset (by omega) (by omega) (by omega)

/-- Its entry is printed as the call says. -/
theorem IDTCall.read_perform (hlimit : idtr.limit.toNat + 1 = 16 * n)
    (hcall : call.index.toNat < n) :
    readIDTEntry idtr (BitVec.ofNat 32 call.index.toNat) (call.perform idtr mem) = call.entry := by
  have hlt := idtr.limit.isLt
  rw [perform_eq hlimit hcall, readIDTEntry_eq (by omega)]
  obtain ⟨h0, h1, h2⟩ := read32_putIDTEntry (i := call.index.toNat) idtr.base
    (idtWord0 call.offset call.selector) (idtWord1 call.offset call.attr) (idtWord2 call.offset)
    mem (by omega)
  rw [h0, h1, h2, call.decode_words]

end Calls

/-- **The table.** After any calls for entries of a table, an entry is printed as the last call for
it says; an entry no call was for keeps its bytes, and every entry those of its fourth word. -/
theorem setIDTEntries_last_writer (idtr : DescriptorTableRegister) (n : ℕ)
    (hlimit : idtr.limit.toNat + 1 = 16 * n) (calls : List IDTCall)
    (hcalls : ∀ call ∈ calls, call.index.toNat < n) (mem : Memory 64) (i : ℕ) (hi : i < n) :
    (match lastCall calls i with
      | some call => readIDTEntry idtr (BitVec.ofNat 32 i) (setIDTEntries idtr calls mem) = call.entry
      | none => ∀ k < 16, setIDTEntries idtr calls mem (idtr.base + BitVec.ofNat 64 (16 * i + k)) =
          mem (idtr.base + BitVec.ofNat 64 (16 * i + k))) ∧
      ∀ k, 12 ≤ k → k < 16 →
        setIDTEntries idtr calls mem (idtr.base + BitVec.ofNat 64 (16 * i + k)) =
          mem (idtr.base + BitVec.ofNat 64 (16 * i + k)) := by
  have hlt := idtr.limit.isLt
  induction calls using List.reverseRecOn with
  | nil => exact ⟨fun _ _ => rfl, fun _ _ _ => rfl⟩
  | append_singleton calls call ih =>
    obtain ⟨hlast, hfourth⟩ := ih fun c hc => hcalls c (List.mem_append_left _ hc)
    have hcall := hcalls call (List.mem_append_right _ (List.mem_singleton_self call))
    have hstep : setIDTEntries idtr (calls ++ [call]) mem =
        call.perform idtr (setIDTEntries idtr calls mem) := List.foldl_concat ..
    have hframe : ∀ k < 16, call.index.toNat ≠ i ∨ 12 ≤ k →
        setIDTEntries idtr (calls ++ [call]) mem (idtr.base + BitVec.ofNat 64 (16 * i + k)) =
          setIDTEntries idtr calls mem (idtr.base + BitVec.ofNat 64 (16 * i + k)) := by
      intro k hk hout
      rw [hstep]
      exact IDTCall.perform_of_ne hlimit hcall hi hk hout
    refine ⟨?_, fun k hlow hk => (hframe k hk (.inr hlow)).trans (hfourth k hlow hk)⟩
    rw [lastCall_snoc]
    by_cases hindex : call.index.toNat = i
    · subst hindex
      rw [if_pos rfl, hstep]
      exact IDTCall.read_perform hlimit hcall
    · -- the call is for another entry
      rw [if_neg hindex]
      cases hbefore : lastCall calls i with
      | some last =>
        rw [hbefore] at hlast
        exact (readIDTEntry_congr (by omega) fun k hk => hframe k hk (.inl hindex)).trans hlast
      | none =>
        rw [hbefore] at hlast
        exact fun k hk => (hframe k hk (.inl hindex)).trans (hlast k hk)

/-- Entry 0x21 of a table of 48 entries at 0x1000 is set twice. -/
theorem setIDTEntries_last_writer_keyboard :
    let idtr : DescriptorTableRegister := ⟨767#16, 0x1000#64⟩
    let first : IDTCall := ⟨0x21#64, 0x1234#64, 8#16, 1#8, 0#8, 14#8, 0#8, by decide, by decide,
      by decide, by decide⟩
    let second : IDTCall := ⟨0x21#64, 0xfedcba9876543210#64, 16#16, 1#8, 3#8, 15#8, 2#8, by decide,
      by decide, by decide, by decide⟩
    readIDTEntry idtr 0x21#32 (setIDTEntries idtr [first, second] fun _ => 0xff#8) =
      ⟨16#16, 0xfedcba9876543210#64, 1#8, 3#8, 1#8, 15#8, 2#8⟩ := by
  intro idtr first second
  have hlast : lastCall [first, second] 0x21 = some second := rfl
  have hread := (setIDTEntries_last_writer idtr 48 rfl [first, second] (by decide) (fun _ => 0xff#8)
    0x21 (by decide)).1
  rw [hlast] at hread
  exact hread.trans (by decide)

/-! ### Indices outside the table -/

section Indices

variable (idtr : DescriptorTableRegister) (index offset : BitVec 64) (attr selector : BitVec 16)
  (mem : Memory 64)

/-- The sixteen bytes of the entry lie in the table. -/
def EntryInTable : Prop := 16 * index.toNat + 15 ≤ idtr.limit.toNat

/-- The call succeeds exactly for an entry of the table, and then changes the first twelve bytes of
the entry only; otherwise it reports the index and changes nothing. -/
structure SetsWithinTable : Prop where
  success_iff : (setIDTEntry idtr index offset attr selector mem).1 = .success ↔
    EntryInTable idtr index
  rejects : ¬ EntryInTable idtr index →
    setIDTEntry idtr index offset attr selector mem = (.indexOutOfRange, mem)
  confined : (setIDTEntry idtr index offset attr selector mem).1 = .success → ∀ a,
    (setIDTEntry idtr index offset attr selector mem).2 a ≠ mem a →
      (a - (idtr.base + 16#64 * index)).toNat < 12

variable {idtr index offset attr selector mem}

/-- Writing an entry changes bytes at a distance below twelve from its start only. -/
theorem putIDTEntry_confined {base a : BitVec 64} {i : ℕ} {p0 p1 p2 : BitVec 32}
    (hi : 16 * i + 16 ≤ 2 ^ 64) (ha : putIDTEntry base i p0 p1 p2 mem a ≠ mem a) :
    (a - (base + BitVec.ofNat 64 (16 * i))).toNat < 12 := by
  have hdist : a = base + BitVec.ofNat 64 (a - base).toNat := (Bytes.add_distance base a).symm
  generalize hoffset : (a - base).toNat = o at hdist
  have ho : o < 2 ^ 64 := hoffset ▸ (a - base).isLt
  subst hdist
  have hin : 16 * i ≤ o ∧ o < 16 * i + 12 := by
    by_contra hout
    exact ha (putIDTEntry_of_offset hi ho (by omega))
  have hsplit : base + BitVec.ofNat 64 o =
      base + BitVec.ofNat 64 (16 * i) + BitVec.ofNat 64 (o - 16 * i) := by
    rw [BitVec.add_assoc, ← BitVec.ofNat_add, Nat.add_sub_cancel' hin.1]
  rw [hsplit, Bytes.toNat_add_sub (n := 12) (by decide) (by omega)]
  omega

/-- What the comparison of the source lets through. -/
theorem setIDTEntry_success_iff :
    (setIDTEntry idtr index offset attr selector mem).1 = .success ↔
      16 * (index.toNat % 2 ^ 60) + 15 ≤ idtr.limit.toNat := by
  by_cases hin : 16 * (index.toNat % 2 ^ 60) + 15 ≤ idtr.limit.toNat
  · rw [setIDTEntry_of_le hin]
    exact ⟨fun _ => hin, fun _ => rfl⟩
  · rw [setIDTEntry_of_lt (Nat.lt_of_not_le hin)]
    exact ⟨fun h => (by cases h), fun h => absurd h hin⟩

end Indices

/-- **Indices.** The call keeps within the table exactly when the index is not one that wraps
around to an entry of the table. -/
theorem setsWithinTable_iff (idtr : DescriptorTableRegister) (index offset : BitVec 64)
    (attr selector : BitVec 16) (mem : Memory 64) :
    SetsWithinTable idtr index offset attr selector mem ↔
      ¬ (2 ^ 60 ≤ index.toNat ∧ 16 * (index.toNat % 2 ^ 60) + 15 ≤ idtr.limit.toNat) := by
  have hlimit := idtr.limit.isLt
  have hindex := index.isLt
  constructor
  · rintro ⟨hsuccess, -, -⟩ ⟨hlarge, hwrapped⟩
    have hin : EntryInTable idtr index := hsuccess.mp (setIDTEntry_success_iff.mpr hwrapped)
    rw [EntryInTable] at hin
    omega
  · intro hnowrap
    have hsame : 16 * (index.toNat % 2 ^ 60) + 15 ≤ idtr.limit.toNat ↔ EntryInTable idtr index := by
      rw [EntryInTable]
      omega
    refine ⟨setIDTEntry_success_iff.trans hsame, fun hout => ?_, fun hsuccess a ha => ?_⟩
    · exact setIDTEntry_of_lt (Nat.lt_of_not_le (mt hsame.mp hout))
    · have hin := setIDTEntry_success_iff.mp hsuccess
      rw [setIDTEntry_of_le hin] at ha
      have hshift : 16#64 * index = BitVec.ofNat 64 (16 * (index.toNat % 2 ^ 60)) := by
        apply BitVec.eq_of_toNat_eq
        rw [BitVec.toNat_mul, BitVec.toNat_ofNat, BitVec.toNat_ofNat]
        omega
      rw [hshift]
      exact putIDTEntry_confined (by omega) ha

/-- Index 2 ^ 60 of a table of 256 entries: the call succeeds and sets entry 0. -/
theorem not_setsWithinTable_wrapped :
    let idtr : DescriptorTableRegister := ⟨4095#16, 0x1000#64⟩
    let result := setIDTEntry idtr 0x1000000000000000#64 0x1234#64 0x8e00#16 8#16 fun _ => 0#8
    ¬ EntryInTable idtr 0x1000000000000000#64 ∧ result.1 = .success ∧ result.2 0x1000#64 = 0x34#8 :=
  ⟨by rw [EntryInTable]; decide, by decide +kernel, by decide +kernel⟩

end Bitnos
