/-
# Format strings

`printf`, for formats with numbers only. The digits of a number and the zeros or blanks in front
of them end where the format goes on with something else, so that a line with such a format
conveys all numbers in it.
-/

import Bitnos.Commands.Format
import Bitnos.Math.Conveys

namespace Bitnos

open Template

/-! ### Numbers -/

/-- The number with the digits that are in a text. -/
def numberIn (base : ℕ) (text : List (BitVec 8)) : ℕ := Numeral.value base (text.filterMap hexDigit)

theorem filterMap_hexDigit_map {ds : List ℕ} (hds : ∀ d ∈ ds, d < 16) :
    (ds.map hexChar).filterMap hexDigit = ds := by
  rw [List.filterMap_map]
  conv_rhs => rw [← List.filterMap_some (l := ds)]
  exact List.filterMap_congr fun d hd => (hexChar_spec (hds d hd)).1

theorem numberIn_hexText (width n : ℕ) : numberIn 16 (hexText width n) = n := by
  rw [numberIn, hexText, filterMap_hexDigit_map fun d hd => Numeral.lt_of_mem_padded (by decide) hd,
    Numeral.value_padded]

theorem lt_of_mem_digits {n d : ℕ} (hd : d ∈ Numeral.digits 10 n) : d < 10 :=
  Numeral.lt_of_mem_padded (by decide)
    (List.mem_append_right (List.replicate (0 - (Numeral.digits 10 n).length) 0) hd)

theorem numberIn_decText (width n : ℕ) : numberIn 10 (decText width n) = n := by
  have hblank (k : ℕ) : (List.replicate k (0x20 : BitVec 8)).filterMap hexDigit = [] := by
    rw [List.filterMap_eq_nil_iff]
    intro c hc
    rw [List.eq_of_mem_replicate hc]
    decide
  rw [numberIn, decText, List.filterMap_append, hblank, List.nil_append,
    filterMap_hexDigit_map fun d hd => (lt_of_mem_digits hd).trans (by decide), Numeral.value_digits]

/-- `%0Nx` -/
def hexField (width : ℕ) : Numeric (BitVec 8) where
  write := hexText width
  alphabet c := (hexDigit c).isSome
  injective := Function.LeftInverse.injective (numberIn_hexText width)
  alphabet_of_mem hc := by
    obtain ⟨d, rfl⟩ := exists_of_mem_hexText hc
    rw [(hexChar_spec d.isLt).1]
    rfl

/-- `%Nu` -/
def decField (width : ℕ) : Numeric (BitVec 8) where
  write := decText width
  alphabet c := (hexDigit c).isSome || (decide (1 < width) && c == 0x20)
  injective := Function.LeftInverse.injective (numberIn_decText width)
  alphabet_of_mem {n c} hc := by
    rcases List.mem_append.mp hc with hblank | hdigit
    · -- there are blanks only where the number is shorter than the width
      obtain ⟨hlength, rfl⟩ := List.mem_replicate.mp hblank
      have hpos : 0 < (Numeral.digits 10 n).length := by
        rw [List.length_pos_iff]
        intro hnil
        have hvalue := Numeral.value_digits (b := 10) (n := n)
        unfold Numeral.digits at hnil
        split_ifs at hnil with hzero
        exact hzero (Nat.digits_eq_nil_iff_eq_zero.mp (List.reverse_eq_nil_iff.mp hnil))
      rw [List.length_map] at hlength
      have hwidth : 1 < width := by omega
      simp [hwidth]
    · obtain ⟨d, hd, rfl⟩ := List.mem_map.mp hdigit
      rw [(hexChar_spec ((lt_of_mem_digits hd).trans (by decide))).1]
      rfl

/-! ### Formats -/

/-- The pieces of a format from some character on, between conversions or inside of one with its width
so far. Where they have a width, hexadecimal numbers are filled up with zeros and decimal ones with
blanks. Lengths like `l` do not matter, as all numbers are passed as such. -/
def formatFrom : Option ℕ → List Char → List (Piece (BitVec 8))
  | _, [] => []
  | none, c :: s =>
    if c = '%' then formatFrom (some 0) s else .char (BitVec.ofNat 8 c.toNat) :: formatFrom none s
  | some width, c :: s =>
    if c = 'l' then formatFrom (some width) s
    else if c.isDigit then formatFrom (some (10 * width + (c.toNat - 0x30))) s
    else if c = 'x' then .number (hexField (max 1 width)) :: formatFrom none s
    else .number (decField (max 1 width)) :: formatFrom none s

def format (s : String) : List (Piece (BitVec 8)) := formatFrom none s.toList

/-- What `printf` writes. -/
def printf (s : String) (args : List ℕ) : List (BitVec 8) := render (format s) args

/-- A line with a delimited format conveys whatever its numbers tell. -/
theorem conveys_line {α γ : Type*} {line : α → List (BitVec 8)} {view : α → γ} {s : String} {n : ℕ}
    {args : α → List ℕ} (hline : ∀ a, line a = printf s (args a)) (hs : delimited (format s) n = true)
    (hargs : ∀ a, (args a).length = n) (hview : ∀ a b, args a = args b → view a = view b) :
    Conveys line view := by
  intro a b rest rest' heq
  rw [hline, hline] at heq
  exact (Template.conveys hs hargs heq).imp_left (hview a b)

end Bitnos
