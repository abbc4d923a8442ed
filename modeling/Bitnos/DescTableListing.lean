/-
# Listing the descriptor tables

`print_desc_table` goes through the global descriptor table, whose entries of eight bytes it
takes apart, and then through the entries of the interrupt descriptor table from 0x20 on, up
to the first that is no gate. What it prints about a segment says what the eight bytes are.
-/

import Bitnos.IdtUpdate

namespace Bitnos

open Bytes (Memory)

/-! ### The global descriptor table -/

/-- What `print_desc_table` prints about a segment. -/
structure GDTEntry where
  base : BitVec 32
  limit : BitVec 32
  g : BitVec 8
  db : BitVec 8
  l : BitVec 8
  avl : BitVec 8
  p : BitVec 8
  dpl : BitVec 8
  s : BitVec 8
  type : BitVec 8
  deriving DecidableEq

/-- The decoding of the two words. -/
def decodeGDTEntry (p0 p1 : BitVec 32) : GDTEntry where
  base := (p1 &&& 0xff000000#32) ||| ((p1 &&& 0xff#32) <<< 16) ||| (p0 >>> 16)
  limit := (p1 &&& 0x000f0000#32) ||| (p0 &&& 0x0000ffff#32)
  g := ((p1 >>> 23) &&& 1#32).setWidth 8
  db := ((p1 >>> 22) &&& 1#32).setWidth 8
  l := ((p1 >>> 21) &&& 1#32).setWidth 8
  avl := ((p1 >>> 20) &&& 1#32).setWidth 8
  p := ((p1 >>> 15) &&& 1#32).setWidth 8
  dpl := ((p1 >>> 13) &&& 3#32).setWidth 8
  s := ((p1 >>> 12) &&& 1#32).setWidth 8
  type := ((p1 >>> 8) &&& 15#32).setWidth 8

/-- The entry with the given number, as `print_desc_table` reads it. -/
def readGDTEntry (gdtr : DescriptorTableRegister) (i : BitVec 32) (mem : Memory 64) : GDTEntry :=
  let p := gdtr.base + (i <<< 3).setWidth 64
  decodeGDTEntry (read32 mem p) (read32 mem (p + 4#64))

/-- The lines about the global descriptor table. -/
def gdtListing (gdtr : DescriptorTableRegister) (mem : Memory 64) : List (ℕ × GDTEntry) :=
  (List.range ((gdtr.limit >>> 3).toNat + 1)).map fun i =>
    (i, readGDTEntry gdtr (BitVec.ofNat 32 i) mem)

section Words

variable {p0 p1 q0 q1 : BitVec 32}

/-- The words that are taken apart into an entry. -/
def encodeGDTEntry (e : GDTEntry) : BitVec 32 × BitVec 32 :=
  ((e.base <<< 16) ||| (e.limit &&& 0x0000ffff#32),
    (e.base &&& 0xff000000#32) ||| ((e.base >>> 16) &&& 0xff#32) ||| (e.limit &&& 0x000f0000#32) |||
      (e.type.setWidth 32 <<< 8) ||| (e.s.setWidth 32 <<< 12) ||| (e.dpl.setWidth 32 <<< 13) |||
      (e.p.setWidth 32 <<< 15) ||| (e.avl.setWidth 32 <<< 20) ||| (e.l.setWidth 32 <<< 21) |||
      (e.db.setWidth 32 <<< 22) ||| (e.g.setWidth 32 <<< 23))

theorem getLsbD_base (i : ℕ) : (decodeGDTEntry p0 p1).base.getLsbD i =
    if i < 16 then p0.getLsbD (16 + i)
    else if i < 24 then p1.getLsbD (i - 16)
    else p1.getLsbD i := by
  have hhigh : 0xff000000#32 = BitMask.low 32 8 <<< 24 := rfl
  have hmiddle : 0xff#32 = BitMask.low 32 8 := rfl
  rw [decodeGDTEntry, hhigh, hmiddle]
  simp only [BitVec.getLsbD_or, BitMask.getLsbD_and_low_shiftLeft, BitVec.getLsbD_shiftLeft,
    BitMask.getLsbD_and_low, BitVec.getLsbD_ushiftRight]
  grind

theorem getLsbD_limit (i : ℕ) : (decodeGDTEntry p0 p1).limit.getLsbD i =
    if i < 16 then p0.getLsbD i else decide (i < 20) && p1.getLsbD i := by
  have hhigh : 0x000f0000#32 = BitMask.low 32 4 <<< 16 := rfl
  have hlow : 0x0000ffff#32 = BitMask.low 32 16 := rfl
  rw [decodeGDTEntry, hhigh, hlow]
  simp only [BitVec.getLsbD_or, BitMask.getLsbD_and_low_shiftLeft, BitMask.getLsbD_and_low]
  grind

/-- Nothing of the words is lost. -/
theorem encode_decodeGDTEntry (p0 p1 : BitVec 32) :
    encodeGDTEntry (decodeGDTEntry p0 p1) = (p0, p1) := by
  have hlow : 0x0000ffff#32 = BitMask.low 32 16 := rfl
  have htop : 0xff000000#32 = BitMask.low 32 8 <<< 24 := rfl
  have hbyte : 0xff#32 = BitMask.low 32 8 := rfl
  have hlimit : 0x000f0000#32 = BitMask.low 32 4 <<< 16 := rfl
  refine Prod.ext ?_ ?_
  · apply BitVec.eq_of_getLsbD_eq
    intro i hi
    rw [encodeGDTEntry, hlow]
    simp only [BitVec.getLsbD_or, BitVec.getLsbD_shiftLeft, BitMask.getLsbD_and_low, getLsbD_base,
      getLsbD_limit]
    grind
  · have hone : 1#32 = BitMask.low 32 1 := rfl
    have hthree : 3#32 = BitMask.low 32 2 := rfl
    have hfifteen : 15#32 = BitMask.low 32 4 := rfl
    -- each attribute goes back to where it was taken from
    have hfield (s k : ℕ) (i : ℕ) :
        ((((p1 >>> s) &&& BitMask.low 32 k).setWidth 8).setWidth 32 <<< s).getLsbD i =
        (decide (s ≤ i) && decide (i < 32) && decide (i - s < 8) && decide (i - s < k) &&
          p1.getLsbD i) := by
      rw [BitVec.getLsbD_shiftLeft, BitVec.getLsbD_setWidth, BitMask.getLsbD_field]
      grind
    apply BitVec.eq_of_getLsbD_eq
    intro i hi
    rw [encodeGDTEntry]
    simp only [BitVec.getLsbD_or, htop, hbyte, hlimit, BitMask.getLsbD_and_low_shiftLeft,
      BitMask.getLsbD_and_low, BitVec.getLsbD_ushiftRight, getLsbD_base, getLsbD_limit]
    simp only [decodeGDTEntry, hone, hthree, hfifteen, hfield]
    grind

theorem decodeGDTEntry_inj : decodeGDTEntry p0 p1 = decodeGDTEntry q0 q1 ↔ p0 = q0 ∧ p1 = q1 := by
  constructor
  · intro h
    have hwords := congrArg encodeGDTEntry h
    rw [encode_decodeGDTEntry, encode_decodeGDTEntry] at hwords
    exact Prod.mk.inj hwords
  · rintro ⟨rfl, rfl⟩
    rfl

end Words

section Listing

variable {gdtr : DescriptorTableRegister} {mem mem' : Memory 64} {i : ℕ}

/-- The printed entry in terms of the words of the table. -/
theorem readGDTEntry_eq (hi : i < 2 ^ 29) : readGDTEntry gdtr (BitVec.ofNat 32 i) mem =
    decodeGDTEntry (read32 mem (gdtr.base + BitVec.ofNat 64 (8 * i)))
      (read32 mem (gdtr.base + BitVec.ofNat 64 (8 * i + 4))) := by
  have hshift : (BitVec.ofNat 32 i <<< 3).setWidth 64 = BitVec.ofNat 64 (8 * i) := by
    apply BitVec.eq_of_toNat_eq
    rw [BitVec.toNat_setWidth, BitVec.toNat_shiftLeft, Nat.shiftLeft_eq, BitVec.toNat_ofNat,
      BitVec.toNat_ofNat]
    omega
  rw [readGDTEntry, hshift, BitVec.ofNat_add (8 * i) 4, ← BitVec.add_assoc]

/-- The printed entry tells its eight bytes. -/
theorem readGDTEntry_inj (hi : i < 2 ^ 29) :
    readGDTEntry gdtr (BitVec.ofNat 32 i) mem = readGDTEntry gdtr (BitVec.ofNat 32 i) mem' ↔
      ∀ k < 8, mem (gdtr.base + BitVec.ofNat 64 (8 * i + k)) =
        mem' (gdtr.base + BitVec.ofNat 64 (8 * i + k)) := by
  have hword (a : ℕ) : read32 mem (gdtr.base + BitVec.ofNat 64 a) =
      read32 mem' (gdtr.base + BitVec.ofNat 64 a) ↔ ∀ k < 4,
        mem (gdtr.base + BitVec.ofNat 64 (a + k)) = mem' (gdtr.base + BitVec.ofNat 64 (a + k)) := by
    simp only [BitVec.ofNat_add, ← BitVec.add_assoc]
    exact Bytes.load_inj
  rw [readGDTEntry_eq hi, readGDTEntry_eq hi, decodeGDTEntry_inj, hword, hword]
  constructor
  · rintro ⟨hfirst, hsecond⟩ k hk
    by_cases hlow : k < 4
    · exact hfirst k hlow
    · obtain ⟨j, rfl⟩ := Nat.exists_eq_add_of_le (Nat.le_of_not_lt hlow)
      rw [← Nat.add_assoc]
      exact hsecond j (by omega)
  · intro h
    refine ⟨fun k hk => h k (by omega), fun k hk => ?_⟩
    rw [Nat.add_assoc]
    exact h (4 + k) (by omega)

theorem toNat_limit_div : (gdtr.limit >>> 3).toNat = gdtr.limit.toNat / 8 := by
  rw [BitVec.toNat_ushiftRight, Nat.shiftRight_eq_div_pow]

/-- The listing tells the bytes of all entries that begin in the table. -/
theorem gdtListing_inj : gdtListing gdtr mem = gdtListing gdtr mem' ↔
    ∀ k < 8 * (gdtr.limit.toNat / 8 + 1),
      mem (gdtr.base + BitVec.ofNat 64 k) = mem' (gdtr.base + BitVec.ofNat 64 k) := by
  have hlimit := gdtr.limit.isLt
  rw [gdtListing, gdtListing, List.map_inj_left, toNat_limit_div]
  simp only [List.mem_range, Prod.mk.injEq, true_and]
  constructor
  · intro h k hk
    -- byte k belongs to entry k / 8
    have hentry :=
      (readGDTEntry_inj (by omega)).mp (h (k / 8) (by omega)) (k % 8) (Nat.mod_lt k (by decide))
    rwa [Nat.div_add_mod] at hentry
  · intro h i hi
    exact (readGDTEntry_inj (by omega)).mpr fun k hk => h _ (by omega)

end Listing

/-- Nothing outside of the table is looked at exactly when its last byte is the last one of an entry. -/
theorem gdtListing_inside_iff (gdtr : DescriptorTableRegister) :
    (∀ mem mem', (∀ k ≤ gdtr.limit.toNat,
        mem (gdtr.base + BitVec.ofNat 64 k) = mem' (gdtr.base + BitVec.ofNat 64 k)) →
        gdtListing gdtr mem = gdtListing gdtr mem') ↔
      gdtr.limit.toNat % 8 = 7 := by
  have hlimit := gdtr.limit.isLt
  refine ⟨fun hinside => ?_, fun hwhole mem mem' hsame => ?_⟩
  · by_contra hpart
    -- the last byte of the last entry is behind the table
    let last := gdtr.base + BitVec.ofNat 64 (8 * (gdtr.limit.toNat / 8) + 7)
    have hlisted := hinside (fun _ => 0#8) (fun p => if p = last then 1#8 else 0#8) fun k hk => by
      refine (if_neg fun hlast => ?_).symm
      have hnat := congrArg BitVec.toNat ((BitVec.add_right_inj gdtr.base).mp hlast)
      rw [BitVec.toNat_ofNat, BitVec.toNat_ofNat] at hnat
      omega
    have hbyte := gdtListing_inj.mp hlisted (8 * (gdtr.limit.toNat / 8) + 7) (by omega)
    rw [if_pos rfl] at hbyte
    exact absurd hbyte (by decide)
  · exact gdtListing_inj.mpr fun k hk => hsame k (by omega)

/-! ### The interrupt descriptor table -/

/-- A line about an entry of the interrupt descriptor table. -/
inductive IDTLine
  | gate (i : ℕ) (entry : IDTEntry)
  | notGate (i : ℕ)

/-- `attr_type` is that of an interrupt gate or of a trap gate. -/
def IDTEntry.isGate (entry : IDTEntry) : Bool := entry.type == 14#8 || entry.type == 15#8

/-- The loop over the entries with the given numbers. -/
def idtLines (entry : ℕ → IDTEntry) : List ℕ → List IDTLine
  | [] => []
  | i :: rest =>
    if (entry i).isGate then .gate i (entry i) :: idtLines entry rest else [.notGate i]

/-- The lines about the interrupt descriptor table. -/
def idtListing (idtr : DescriptorTableRegister) (mem : Memory 64) : List IDTLine :=
  idtLines (fun i => readIDTEntry idtr (BitVec.ofNat 32 i) mem)
    ((List.range' 0x20 0x10).takeWhile fun i => i ≤ (idtr.limit >>> 4).toNat)

section Gates

variable {idtr : DescriptorTableRegister} {n i : ℕ} {mem : Memory 64} {calls : List IDTCall}
  {entry : ℕ → IDTEntry} {is : List ℕ}

/-- An entry is among the lines when it and all before it are gates. -/
theorem gate_mem_idtLines {e : IDTEntry} {k m : ℕ} :
    IDTLine.gate i e ∈ idtLines entry (List.range' k m) ↔
      k ≤ i ∧ i < k + m ∧ e = entry i ∧ ∀ j, k ≤ j → j ≤ i → (entry j).isGate = true := by
  induction m generalizing k with
  | zero =>
    refine ⟨fun h => absurd h List.not_mem_nil, fun h => ?_⟩
    obtain ⟨hki, hik, -⟩ := h
    omega
  | succ m ih =>
    rw [List.range'_succ, idtLines]
    split_ifs with hgate
    · rw [List.mem_cons, IDTLine.gate.injEq, ih]
      constructor
      -- either it is the entry at the front, or it is listed behind it
      · rintro (⟨rfl, rfl⟩ | ⟨hki, him, he, hall⟩)
        · refine ⟨le_rfl, by omega, rfl, fun j hkj hji => ?_⟩
          rwa [Nat.le_antisymm hji hkj]
        · refine ⟨by omega, by omega, he, fun j hkj hji => ?_⟩
          rcases hkj.eq_or_lt with rfl | hlt
          · exact hgate
          · exact hall j hlt hji
      · rintro ⟨hki, him, he, hall⟩
        rcases hki.eq_or_lt with rfl | hlt
        · exact .inl ⟨rfl, he⟩
        · exact .inr ⟨hlt, by omega, he, fun j hkj hji => hall j (by omega) hji⟩
    · rw [List.mem_singleton]
      refine ⟨fun h => (by cases h), fun h => ?_⟩
      exact absurd (h.2.2.2 k le_rfl h.1) hgate

/-- The numbers the loop passes. -/
theorem takeWhile_range' {k m : ℕ} : (List.range' k m).takeWhile (fun i => decide (i < n)) =
    List.range' k (min m (n - k)) := by
  induction m generalizing k with
  | zero => rw [Nat.zero_min]; rfl
  | succ m ih =>
    rw [List.range'_succ]
    by_cases hk : k < n
    · have hcount : min (m + 1) (n - k) = min m (n - (k + 1)) + 1 := by omega
      rw [List.takeWhile_cons_of_pos (by simpa using hk), ih, hcount, List.range'_succ]
    · have hcount : min (m + 1) (n - k) = 0 := by omega
      rw [List.takeWhile_cons_of_neg (by simpa using hk), hcount]
      rfl

theorem idtListing_eq (hlimit : idtr.limit.toNat + 1 = 16 * n) : idtListing idtr mem =
    idtLines (fun i => readIDTEntry idtr (BitVec.ofNat 32 i) mem)
      (List.range' 0x20 (min 0x10 (n - 0x20))) := by
  have hlast : (idtr.limit >>> 4).toNat = n - 1 := by
    rw [BitVec.toNat_ushiftRight, Nat.shiftRight_eq_div_pow]
    omega
  have hbelow : (fun i => decide (i ≤ (idtr.limit >>> 4).toNat)) = fun i => decide (i < n) := by
    funext i
    rw [hlast, decide_eq_decide]
    omega
  rw [idtListing, hbelow, takeWhile_range']

/-- What an entry of the table is after some calls. -/
def entryAfter (idtr : DescriptorTableRegister) (calls : List IDTCall) (mem : Memory 64) (i : ℕ) : IDTEntry :=
  match lastCall calls i with
  | some call => call.entry
  | none => readIDTEntry idtr (BitVec.ofNat 32 i) mem

theorem readIDTEntry_setIDTEntries (hlimit : idtr.limit.toNat + 1 = 16 * n)
    (hcalls : ∀ call ∈ calls, call.index.toNat < n) (hi : i < n) :
    readIDTEntry idtr (BitVec.ofNat 32 i) (setIDTEntries idtr calls mem) =
      entryAfter idtr calls mem i := by
  have hlt := idtr.limit.isLt
  induction calls using List.reverseRecOn with
  | nil => rfl
  | append_singleton calls call ih =>
    have hbefore := ih fun c hc => hcalls c (List.mem_append_left _ hc)
    have hcall := hcalls call (List.mem_append_right _ (List.mem_singleton_self call))
    have hstep : setIDTEntries idtr (calls ++ [call]) mem =
        call.perform idtr (setIDTEntries idtr calls mem) := List.foldl_concat ..
    rw [hstep, entryAfter, lastCall_snoc]
    by_cases hindex : call.index.toNat = i
    · subst hindex
      rw [if_pos rfl]
      exact IDTCall.read_perform hlimit hcall
    · rw [if_neg hindex]
      -- the last call was for another entry, and leaves this one alone
      have hframe : ∀ k < 16, call.perform idtr (setIDTEntries idtr calls mem)
          (idtr.base + BitVec.ofNat 64 (16 * i + k)) =
            setIDTEntries idtr calls mem (idtr.base + BitVec.ofNat 64 (16 * i + k)) :=
        fun k hk => IDTCall.perform_of_ne hlimit hcall hi hk (.inl hindex)
      exact (readIDTEntry_congr (by omega) hframe).trans hbefore

end Gates

/-- **The gates.** After any calls for entries of the table, an entry is listed as a gate exactly when
it is one of the sixteen from 0x20 on that lie in the table, and it and all of these before it are gates
by the last calls for them or, where there was none, from before; and it is listed as what it is. -/
theorem gate_mem_idtListing_iff {idtr : DescriptorTableRegister} {n : ℕ}
    (hlimit : idtr.limit.toNat + 1 = 16 * n) {calls : List IDTCall}
    (hcalls : ∀ call ∈ calls, call.index.toNat < n) (mem : Memory 64) (i : ℕ) (e : IDTEntry) :
    IDTLine.gate i e ∈ idtListing idtr (setIDTEntries idtr calls mem) ↔
      0x20 ≤ i ∧ i < min 0x30 n ∧ e = entryAfter idtr calls mem i ∧
        ∀ j, 0x20 ≤ j → j ≤ i → (entryAfter idtr calls mem j).isGate = true := by
  have hentry (j : ℕ) (hj : j < n) := @readIDTEntry_setIDTEntries idtr n j mem calls hlimit hcalls hj
  rw [idtListing_eq hlimit, gate_mem_idtLines]
  constructor
  · rintro ⟨hlow, hhigh, rfl, hall⟩
    refine ⟨hlow, by omega, hentry i (by omega), fun j hj hji => ?_⟩
    rw [← hentry j (by omega)]
    exact hall j hj hji
  · rintro ⟨hlow, hhigh, rfl, hall⟩
    refine ⟨hlow, by omega, (hentry i (by omega)).symm, fun j hj hji => ?_⟩
    rw [hentry j (by omega)]
    exact hall j hj hji

/-- The gate of the keyboard is not listed as long as the entry before it is none. -/
theorem gate_mem_idtListing_keyboard :
    let idtr : DescriptorTableRegister := ⟨767#16, 0x1000#64⟩
    let keyboard : IDTCall := ⟨0x21#64, 0x1234#64, 8#16, 1#8, 0#8, 14#8, 0#8, by decide, by decide,
      by decide, by decide⟩
    let timer : IDTCall := ⟨0x20#64, 0x5678#64, 8#16, 1#8, 0#8, 14#8, 0#8, by decide, by decide,
      by decide, by decide⟩
    (∀ e, IDTLine.gate 0x21 e ∉ idtListing idtr (setIDTEntries idtr [keyboard] fun _ => 0#8)) ∧
      IDTLine.gate 0x21 keyboard.entry ∈
        idtListing idtr (setIDTEntries idtr [keyboard, timer] fun _ => 0#8) := by
  intro idtr keyboard timer
  constructor
  · intro e hlisted
    obtain ⟨-, -, -, hall⟩ :=
      (@gate_mem_idtListing_iff idtr 48 rfl [keyboard] (by decide) (fun _ => 0#8) 0x21 e).mp hlisted
    exact absurd (hall 0x20 (by decide) (by decide)) (by decide +kernel)
  · refine (@gate_mem_idtListing_iff idtr 48 rfl [keyboard, timer] (by decide) (fun _ => 0#8) 0x21
      keyboard.entry).mpr ⟨by decide, by decide, rfl, fun j hj hji => ?_⟩
    obtain rfl | rfl : j = 0x20 ∨ j = 0x21 := by omega
    · rfl
    · rfl

end Bitnos
