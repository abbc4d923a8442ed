/-
# The text about the descriptor tables

All of `print_desc_table`: a line for each table register, the lines about the entries, and the
task register. How many lines there are about segments follows from the limit of the table, and
the lines about gates end where the next entry is none, so that the whole text can be read back.
-/

import Bitnos.ByteReads
import Bitnos.Commands.Printf
import Bitnos.DescTableListing

namespace Bitnos

open Bytes (Memory)
open Template

def gdtLine (line : ℕ × GDTEntry) : List (BitVec 8) :=
  printf ("%3u: Base=%08x Limit=%05x " ++ "G=%d D/B=%d L=%d AVL=%d P=%d DPL=%d S=%d Type=%d\n")
    [line.1, line.2.base.toNat, line.2.limit.toNat, line.2.g.toNat, line.2.db.toNat, line.2.l.toNat,
      line.2.avl.toNat, line.2.p.toNat, line.2.dpl.toNat, line.2.s.toNat, line.2.type.toNat]

def gateLine (i : ℕ) (entry : IDTEntry) : List (BitVec 8) :=
  printf ("%3u: Selector=%04x Offset=%016lx " ++ "P=%d DPL=%d Type=%d(D=%d) IST=%d\n")
    [i, entry.selector.toNat, entry.offset.toNat, entry.p.toNat, entry.dpl.toNat, entry.type.toNat,
      entry.d.toNat, entry.ist.toNat]

def notGateLine (i : ℕ) : List (BitVec 8) :=
  printf "%3u: It is not 64-bit interrupt and trap gates!\n" [i]

def idtLine : IDTLine → List (BitVec 8)
  | .gate i entry => gateLine i entry
  | .notGate i => notGateLine i

def gdtrLine (gdtr : DescriptorTableRegister) : List (BitVec 8) :=
  printf "GDTR: Base %08lx, Limit %x\n" [gdtr.base.toNat, gdtr.limit.toNat]

def idtrLine (idtr : DescriptorTableRegister) : List (BitVec 8) :=
  printf "IDTR: Base %08lx, Limit %x\n" [idtr.base.toNat, idtr.limit.toNat]

def trLine (tr : BitVec 16) : List (BitVec 8) := printf "%04x\n" [tr.toNat]

/-- `print_desc_table`, when the registers of the processor hold these values. -/
def printDescTable (gdtr idtr : DescriptorTableRegister) (tr : BitVec 16) (mem : Memory 64) :
    List (BitVec 8) :=
  let gdtr := getDTR gdtr
  let idtr := getDTR idtr
  gdtrLine gdtr ++ ((gdtListing gdtr mem).flatMap gdtLine ++
    (idtrLine idtr ++ ((idtListing idtr mem).flatMap idtLine ++ trLine tr)))

/-! ### Lines -/

theorem conveys_gdtLine : Conveys gdtLine id := by
  refine conveys_line (fun _ => rfl) (n := 11) (by decide) (fun _ => rfl) ?_
  rintro ⟨_, ⟨⟩⟩ ⟨_, ⟨⟩⟩ heq
  simpa only [List.cons.injEq, BitVec.toNat_inj, and_true, id_eq, Prod.mk.injEq, GDTEntry.mk.injEq]
    using heq

theorem conveys_gateLine (i : ℕ) : Conveys (gateLine i) id := by
  refine conveys_line (fun _ => rfl) (n := 8) (by decide) (fun _ => rfl) ?_
  rintro ⟨⟩ ⟨⟩ heq
  simp only [List.cons.injEq, BitVec.toNat_inj, and_true, true_and, id_eq, IDTEntry.mk.injEq] at heq ⊢
  tauto

theorem conveys_registerLine {line : DescriptorTableRegister → List (BitVec 8)} {s : String}
    (hline : ∀ dtr, line dtr = printf s [dtr.base.toNat, dtr.limit.toNat])
    (hs : delimited (format s) 2 = true) : Conveys line id := by
  refine conveys_line hline hs (fun _ => rfl) ?_
  rintro ⟨⟩ ⟨⟩ heq
  simp only [List.cons.injEq, BitVec.toNat_inj, and_true, id_eq,
    DescriptorTableRegister.mk.injEq] at heq ⊢
  exact heq.symm

theorem conveys_gdtrLine : Conveys gdtrLine id := conveys_registerLine (fun _ => rfl) (by decide)

theorem conveys_idtrLine : Conveys idtrLine id := conveys_registerLine (fun _ => rfl) (by decide)

theorem conveys_trLine : Conveys trLine id :=
  conveys_line (fun _ => rfl) (n := 1) (by decide) (fun _ => rfl) fun _ _ heq =>
    BitVec.toNat_inj.mp (List.head_eq_of_cons_eq heq)

/-! ### The gates -/

/-- Behind the number of an entry it is clear whether the entry is a gate. -/
theorem gateLine_append_ne (i : ℕ) (entry : IDTEntry) (s t : List (BitVec 8)) :
    gateLine i entry ++ s ≠ notGateLine i ++ t := by
  intro heq
  obtain ⟨u, hu⟩ : ∃ u, gateLine i entry = decText 3 i ++ (ascii ": S" ++ u) := ⟨_, rfl⟩
  obtain ⟨v, hv⟩ : ∃ v, notGateLine i = decText 3 i ++ (ascii ": I" ++ v) := ⟨_, rfl⟩
  rw [hu, hv, List.append_assoc, List.append_assoc, List.append_assoc, List.append_assoc] at heq
  -- the third character behind the number is the first of the message or of the fields
  have hthird := congrArg (·[2]?) (List.append_cancel_left heq)
  exact absurd (Option.some.inj hthird : (0x53 : BitVec 8) = 0x49) (by decide)

variable {entry entry' : ℕ → IDTEntry} {s t : List (BitVec 8)}

/-- The lines about the same entries of two tables end where they are not the same. -/
theorem idtLines_cancel (is : List ℕ)
    (heq : (idtLines entry is).flatMap idtLine ++ s = (idtLines entry' is).flatMap idtLine ++ t) :
    idtLines entry is = idtLines entry' is ∧ s = t := by
  induction is with
  | nil => exact ⟨rfl, heq⟩
  | cons i is ih =>
    rw [idtLines, idtLines] at heq ⊢
    split_ifs at heq ⊢ with hgate hgate' hgate'
    · simp only [List.flatMap_cons, idtLine, List.append_assoc] at heq
      obtain ⟨hentry, heq⟩ := conveys_gateLine i heq
      obtain ⟨hlines, hrest⟩ := ih heq
      exact ⟨by rw [hlines, show entry i = entry' i from hentry], hrest⟩
    · simp only [List.flatMap_cons, idtLine, List.append_assoc] at heq
      exact absurd heq (gateLine_append_ne _ _ _ _)
    · simp only [List.flatMap_cons, idtLine, List.append_assoc] at heq
      exact absurd heq.symm (gateLine_append_ne _ _ _ _)
    · exact ⟨rfl, List.append_cancel_left heq⟩

/-! ### The text -/

theorem length_gdtListing (gdtr : DescriptorTableRegister) (mem : Memory 64) :
    (gdtListing gdtr mem).length = (gdtr.limit >>> 3).toNat + 1 := by
  rw [gdtListing, List.length_map, List.length_range]

theorem printDescTable_cancel {gdtr gdtr' idtr idtr' : DescriptorTableRegister} {tr tr' : BitVec 16}
    {mem mem' : Memory 64}
    (heq : printDescTable gdtr idtr tr mem = printDescTable gdtr' idtr' tr' mem') :
    gdtr = gdtr' ∧ idtr = idtr' ∧ tr = tr' ∧ gdtListing gdtr mem = gdtListing gdtr mem' ∧
      idtListing idtr mem = idtListing idtr mem' := by
  simp only [printDescTable, getDTR_eq] at heq
  -- the limit is read first, and with it how many entries follow
  obtain ⟨hgdtr, heq⟩ := conveys_gdtrLine heq
  obtain rfl : gdtr = gdtr' := hgdtr
  obtain ⟨hgdt, heq⟩ := conveys_gdtLine.flatMap_of_length_eq
    ((length_gdtListing gdtr mem).trans (length_gdtListing gdtr mem').symm) heq
  rw [List.map_id, List.map_id] at hgdt
  obtain ⟨hidtr, heq⟩ := conveys_idtrLine heq
  obtain rfl : idtr = idtr' := hidtr
  obtain ⟨hidt, heq⟩ := idtLines_cancel _ heq
  exact ⟨rfl, rfl, conveys_trLine.view_eq heq, hgdt, hidt⟩

/-- **The descriptor tables.** What `print_desc_table` prints is the same for two states of the machine
exactly when the three registers are, all entries that begin in the global table hold the same bytes,
and the same gates are listed; and the loop over the global table looks at nothing outside of it exactly
when the last byte of the table is the last one of an entry. -/
theorem printDescTable_lossless (gdtr idtr : DescriptorTableRegister) (tr : BitVec 16)
    (mem : Memory 64) :
    (∀ gdtr' idtr' tr' mem', printDescTable gdtr idtr tr mem = printDescTable gdtr' idtr' tr' mem' ↔
      gdtr = gdtr' ∧ idtr = idtr' ∧ tr = tr' ∧
        (∀ k < 8 * (gdtr.limit.toNat / 8 + 1),
          mem (gdtr.base + BitVec.ofNat 64 k) = mem' (gdtr.base + BitVec.ofNat 64 k)) ∧
        idtListing idtr mem = idtListing idtr mem') ∧
      ((∀ mem mem', (∀ k ≤ gdtr.limit.toNat,
          mem (gdtr.base + BitVec.ofNat 64 k) = mem' (gdtr.base + BitVec.ofNat 64 k)) →
          gdtListing gdtr mem = gdtListing gdtr mem') ↔
        gdtr.limit.toNat % 8 = 7) := by
  refine ⟨fun gdtr' idtr' tr' mem' => ⟨fun heq => ?_, ?_⟩, gdtListing_inside_iff gdtr⟩
  · obtain ⟨hgdtr, hidtr, htr, hgdt, hidt⟩ := printDescTable_cancel heq
    exact ⟨hgdtr, hidtr, htr, gdtListing_inj.mp hgdt, hidt⟩
  · rintro ⟨rfl, rfl, rfl, hbytes, hidt⟩
    have hgdt := gdtListing_inj.mpr hbytes
    rw [printDescTable, printDescTable, getDTR_eq, getDTR_eq, hgdt, hidt]

end Bitnos
