/-
# The glyphs of printed text

The font holds sixteen rows for each of the 256 byte values. `DrawAscii` finds the
rows of a character by its `char`, which is signed, so that those of the upper half of
the byte values are looked for in front of the font.
-/

import Bitnos.Console.Debug
import Mathlib.Data.List.Basic

namespace Bitnos

open Graphics

/-! ### What `DrawAscii` reads -/

/-- A row `DrawAscii` reads for a character, by its offset from the start of the font. -/
structure GlyphRead where
  ch : BitVec 8
  offset : BitVec 64
  deriving DecidableEq

/-- The reads of `DrawAscii`. -/
def asciiReads (ch : BitVec 8) : List GlyphRead :=
  (List.range 16).map fun dy => ⟨ch, 16 * ch.signExtend 64 + BitVec.ofNat 64 dy⟩

/-- The row is one of the sixteen of the character, which all lie in the font. -/
structure GlyphRead.InGlyph (r : GlyphRead) : Prop where
  row : ∃ dy < 16, r.offset.toNat = 16 * r.ch.toNat + dy
  inFont : r.offset.toNat < 4096

theorem mem_asciiReads {ch : BitVec 8} {r : GlyphRead} :
    r ∈ asciiReads ch ↔ ∃ dy < 16, r = ⟨ch, 16 * ch.signExtend 64 + BitVec.ofNat 64 dy⟩ := by
  simp only [asciiReads, List.mem_map, List.mem_range, eq_comm]

/-- The pixel of the glyph at an offset is drawn if it is dark. -/
theorem mem_drawAscii_offset {font : Font} (position : Point) {ch : BitVec 8} {dx dy : ℕ}
    (hdx : dx < 8) (hdy : dy < 16) :
    ⟨position + ⟨BitVec.ofNat 32 dx, BitVec.ofNat 32 dy⟩, black⟩ ∈ drawAscii font position ch ↔
      font.dark ch dx dy := by
  have hx := offset_add position.x (show dx < 2 ^ 32 by omega)
  have hy := offset_add position.y (show dy < 2 ^ 32 by omega)
  simp only [mem_drawAscii, Inside, add_x, add_y, hx, hy, true_and]
  exact and_iff_right ⟨hdx, hdy⟩

/-- Every row read shows in what is drawn, and nothing else of the font does. -/
theorem drawAscii_eq_iff {font font' : Font} {position : Point} {ch : BitVec 8} :
    drawAscii font position ch = drawAscii font' position ch ↔
      ∀ r ∈ asciiReads ch, font r.offset = font' r.offset := by
  constructor
  · intro heq r hr
    obtain ⟨dy, hdy, rfl⟩ := mem_asciiReads.mp hr
    refine BitVec.eq_of_getMsbD_eq fun dx hdx => Bool.eq_iff_iff.mpr ?_
    change (font.row ch dy).getMsbD dx ↔ (font'.row ch dy).getMsbD dx
    rw [Font.getMsbD_row, Font.getMsbD_row, ← mem_drawAscii_offset position hdx hdy, heq,
      mem_drawAscii_offset position hdx hdy]
  · intro hrows
    refine List.flatMap_congr fun dy hdy => congrArg (drawRow position dy 8 0) ?_
    exact hrows _ (mem_asciiReads.mpr ⟨dy, List.mem_range.mp hdy, rfl⟩)

theorem toNat_signExtend_of_lt {ch : BitVec 8} (hlt : ch.toNat < 0x80) :
    (ch.signExtend 64).toNat = ch.toNat := by
  have hmsb : ch.msb = false := BitVec.msb_eq_false_iff_two_mul_lt.mpr (by omega)
  rw [BitVec.signExtend_eq_setWidth_of_msb_false hmsb, BitVec.toNat_setWidth_of_le (by decide)]

theorem toNat_signExtend_of_le {ch : BitVec 8} (hle : 0x80 ≤ ch.toNat) :
    (ch.signExtend 64).toNat = ch.toNat + (2 ^ 64 - 2 ^ 8) := by
  have hmsb : ch.msb = true := BitVec.msb_eq_true_iff_two_mul_ge.mpr (by omega)
  rw [BitVec.toNat_signExtend, hmsb, if_pos rfl, BitVec.toNat_setWidth_of_le (by decide)]

/-- The rows of a seven bit character are its own, those of any other lie in front of
the font. -/
theorem inGlyph_iff {ch : BitVec 8} {r : GlyphRead} (hr : r ∈ asciiReads ch) :
    r.InGlyph ↔ ch.toNat < 0x80 := by
  obtain ⟨dy, hdy, rfl⟩ := mem_asciiReads.mp hr
  have hoffset : (16 * ch.signExtend 64 + BitVec.ofNat 64 dy).toNat =
      (16 * (ch.signExtend 64).toNat + dy) % 2 ^ 64 := by
    simp
  constructor
  · intro h
    by_contra hge
    -- the offset of a negative character is close to `2 ^ 64`
    have hlt := h.inFont
    have hch := ch.isLt
    rw [hoffset, toNat_signExtend_of_le (by omega)] at hlt
    omega
  · intro hlt
    rw [toNat_signExtend_of_lt hlt, Nat.mod_eq_of_lt (by omega)] at hoffset
    exact ⟨⟨dy, hdy, hoffset⟩, hoffset.trans_lt (by omega)⟩

/-! ### What the console reads -/

namespace DebugConsole

/-- The characters `PutChar` draws for a character. The last one is the cursor. -/
def glyphs (ch : BitVec 8) : List (BitVec 8) :=
  if ch = Ascii.newline then []
  else if ch = Ascii.backspace then [Ascii.underscore]
  else [ch, Ascii.underscore]

/-- The reads of `PutChar`. -/
def putCharReads (ch : BitVec 8) : List GlyphRead := (glyphs ch).flatMap asciiReads

/-- What `PutChar` draws depends on the rows it reads. -/
theorem putChar_congr {font font' : Font} {cons : DebugConsole} {ch : BitVec 8}
    (hrows : ∀ r ∈ putCharReads ch, font r.offset = font' r.offset) :
    cons.putChar font ch = cons.putChar font' ch := by
  have hglyph : ∀ glyph ∈ glyphs ch, ∀ position,
      drawAscii font position glyph = drawAscii font' position glyph :=
    fun glyph hglyph _ => drawAscii_eq_iff.mpr fun r hr =>
      hrows r (List.mem_flatMap.mpr ⟨glyph, hglyph, hr⟩)
  unfold glyphs at hglyph
  unfold putChar drawCursor
  split_ifs at hglyph ⊢ with hn hb
  · rfl
  · rw [hglyph _ List.mem_cons_self]
  · rw [hglyph ch List.mem_cons_self, hglyph _ (List.mem_cons_of_mem ch List.mem_cons_self)]

theorem putChars_congr {font font' : Font} {cons : DebugConsole} {chars : List (BitVec 8)}
    (hrows : ∀ r ∈ chars.flatMap putCharReads, font r.offset = font' r.offset) :
    cons.putChars font chars = cons.putChars font' chars := by
  induction chars generalizing cons with
  | nil => rfl
  | cons ch chars ih =>
    rw [List.flatMap_cons, List.forall_mem_append] at hrows
    rw [putChars_cons, putChars_cons, putChar_congr hrows.1, ih hrows.2]

/-- One call of `PutChar` reads within the glyphs of what it draws if the character is
a seven bit one. -/
theorem putCharReads_inGlyph_iff {ch : BitVec 8} :
    (∀ r ∈ putCharReads ch, r.InGlyph) ↔ ch.toNat < 0x80 := by
  have hascii : ∀ glyph, (∀ r ∈ asciiReads glyph, r.InGlyph) ↔ glyph.toNat < 0x80 := by
    intro glyph
    constructor
    · intro h
      have hfirst : ⟨glyph, 16 * glyph.signExtend 64 + BitVec.ofNat 64 0⟩ ∈ asciiReads glyph :=
        mem_asciiReads.mpr ⟨0, by decide, rfl⟩
      exact (inGlyph_iff hfirst).mp (h _ hfirst)
    · exact fun hlt r hr => (inGlyph_iff hr).mpr hlt
  simp only [putCharReads, List.forall_mem_flatMap, hascii]
  unfold glyphs
  split_ifs with hn hb
  · simp [hn]
  · simp [hb]
  · simp

theorem putChars_inGlyph_iff {chars : List (BitVec 8)} :
    (∀ r ∈ chars.flatMap putCharReads, r.InGlyph) ↔ ∀ ch ∈ chars, ch.toNat < 0x80 := by
  simp only [List.forall_mem_flatMap, putCharReads_inGlyph_iff]

end DebugConsole

/-! ### `write` -/

/-- The values `write` stores in `errno`. -/
inductive Errno
  | badFile
  | invalid
  deriving DecidableEq

/-- What a successful call of `write` does and returns. -/
structure Written where
  reads : List GlyphRead
  writes : List PixelWrite
  cons : DebugConsole
  result : BitVec 32

/-- `write`, for the standard output and the console in `default_debug_console`. The
length is an `int`, and the loop does not run for a negative one. -/
def write (font : Font) (defaultConsole : Option DebugConsole) (file : BitVec 32)
    (ptr : ℕ → BitVec 8) (len : BitVec 32) : Except Errno Written :=
  if file ≠ 1 then
    .error .badFile
  else
    match defaultConsole with
    | none => .error .invalid
    | some cons =>
      let chars := (List.range len.toInt.toNat).map ptr
      let printed := cons.putChars font chars
      .ok ⟨chars.flatMap DebugConsole.putCharReads, printed.1, printed.2, len⟩

/-- Printing the string reads only rows of the glyphs that are printed. -/
def StaysInFont (font : Font) (cons : DebugConsole) (ptr : ℕ → BitVec 8) (len : BitVec 32) : Prop :=
  ∃ written, write font (some cons) 1 ptr len = .ok written ∧ ∀ r ∈ written.reads, r.InGlyph

/-- Printing reads within the font just for a string of seven bit characters. -/
theorem staysInFont_iff {font : Font} {cons : DebugConsole} {ptr : ℕ → BitVec 8}
    {len : BitVec 32} :
    StaysInFont font cons ptr len ↔ ∀ i < len.toInt.toNat, (ptr i).toNat < 0x80 := by
  have hwrite : StaysInFont font cons ptr len ↔
      ∀ r ∈ ((List.range len.toInt.toNat).map ptr).flatMap DebugConsole.putCharReads, r.InGlyph := by
    constructor
    · rintro ⟨written, hok, hin⟩
      obtain rfl := Except.ok.inj hok
      exact hin
    · exact fun hin => ⟨_, rfl, hin⟩
  rw [hwrite, DebugConsole.putChars_inGlyph_iff]
  simp only [List.forall_mem_map, List.mem_range]

/-- The single byte 0xb1, for which the font has a glyph. -/
theorem not_staysInFont_b1 : ¬StaysInFont (fun _ => 0) ⟨⟨80, 25⟩, ⟨0, 0⟩⟩ (fun _ => 0xb1) 1 := by
  rintro ⟨written, hok, hin⟩
  obtain rfl := Except.ok.inj hok
  have hfirst := (hin ⟨0xb1, 16 * (0xb1 : BitVec 8).signExtend 64⟩ (by decide)).inFont
  revert hfirst
  decide

end Bitnos
