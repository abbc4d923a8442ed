/-
# A line shown on the text screen

A screen shows a line from a cell on when the cells from there have its characters, the
cursor follows them, and nothing before that cell has changed. Typing and erasing a
character keep this up as long as the line does not reach the last cell of the screen,
also where the line goes over the end of a row.
-/

import Bitnos.Console.Grid

namespace Bitnos

open TextCursor

namespace TextScreen

/-- The screen shows the line from the cell with number `base` on, on top of what it showed
before the line was begun. -/
structure ShowsLine (width height base : ℕ) (old : Cell → Option (BitVec 8))
    (shown : List (BitVec 8)) (s : TextScreen) : Prop where
  onScreen : OnScreen width height s.cursor
  cursor_eq : index width s.cursor = base + shown.length
  caret : s.grid s.cursor = some Ascii.underscore
  text : ∀ c, OnScreen width height c → ∀ k ch, shown[k]? = some ch → index width c = base + k →
    s.grid c = some ch
  before : ∀ c, OnScreen width height c → index width c < base → s.grid c = old c
  beyond : ∀ c, OnScreen width height c → base + shown.length < index width c →
    s.grid c = none ∨ s.grid c = old c

variable {width height base : ℕ} {old : Cell → Option (BitVec 8)} {line : List (BitVec 8)}
  {s : TextScreen} {ch : BitVec 8}

/-- A cursor that is shown begins an empty line. -/
theorem ShowsLine.start (hon : OnScreen width height s.cursor)
    (hcaret : s.grid s.cursor = some Ascii.underscore) :
    ShowsLine width height (index width s.cursor) s.grid [] s where
  onScreen := hon
  cursor_eq := rfl
  caret := hcaret
  text _ _ k ch hch := by simp at hch
  before _ _ _ := rfl
  beyond _ _ _ := .inr rfl

namespace ShowsLine

theorem ne_cursor (h : ShowsLine width height base old line s) {c : Cell}
    (hindex : index width c ≠ base + line.length) : c ≠ s.cursor := by
  rintro rfl
  exact hindex h.cursor_eq

/-- Another character is shown after the line. -/
theorem type_printed (h : ShowsLine width height base old line s) (hn : ch ≠ Ascii.newline)
    (hb : ch ≠ Ascii.backspace) (hroom : base + line.length + 1 < width * height) :
    ShowsLine width height base old (line ++ [ch]) (s.type width height ch) := by
  have hmoved : DebugConsole.moved width height ch s.cursor = advance width height s.cursor := by
    rw [DebugConsole.moved, if_neg hn, if_neg hb]
  have hindex : index width (advance width height s.cursor) = base + line.length + 1 := by
    rw [h.onScreen.index_advance (by rwa [h.cursor_eq]), h.cursor_eq]
  have hgrid : ∀ c, c ≠ advance width height s.cursor →
      (s.type width height ch).grid c = if c = s.cursor then some ch else s.grid c := by
    intro c hc
    rw [TextScreen.type_printed hn hb, hmoved, put, Function.update_of_ne hc, put,
      Function.update_apply]
  -- cells apart from the two cursors keep what they show
  have hne : ∀ c, index width c ≠ base + line.length + 1 → c ≠ advance width height s.cursor := by
    rintro c hc rfl
    exact hc hindex
  refine ⟨?_, ?_, type_grid_cursor hn, ?_, ?_, ?_⟩
  · rw [type_cursor, hmoved]
    exact h.onScreen.advance
  · rw [type_cursor, hmoved, hindex, List.length_append, List.length_singleton, Nat.add_assoc]
  · intro c hc k ch' hch' hk
    have hle : k ≤ line.length := by
      have hlt := (List.getElem?_eq_some_iff.mp hch').1
      rw [List.length_append, List.length_singleton] at hlt
      exact Nat.le_of_lt_succ hlt
    rw [hgrid c (hne c (by omega))]
    -- an old character of the line, or the new one
    rcases hle.lt_or_eq with hlt | rfl
    · rw [if_neg (h.ne_cursor (by omega))]
      rw [List.getElem?_append_left hlt] at hch'
      exact h.text c hc k ch' hch' hk
    · have hcursor : c = s.cursor := hc.index_injective h.onScreen (hk.trans h.cursor_eq.symm)
      rw [if_pos hcursor]
      simpa using hch'
  · intro c hc hlt
    rw [hgrid c (hne c (by omega)), if_neg (h.ne_cursor (by omega))]
    exact h.before c hc hlt
  · intro c hc hlt
    rw [List.length_append, List.length_singleton] at hlt
    rw [hgrid c (hne c (by omega)), if_neg (h.ne_cursor (by omega))]
    exact h.beyond c hc (by omega)

/-- A backspace takes the last character of the line off the screen. -/
theorem type_backspace (h : ShowsLine width height base old line s) (hne : line ≠ []) :
    ShowsLine width height base old line.dropLast (s.type width height Ascii.backspace) := by
  have hpos : 0 < line.length := List.length_pos_of_ne_nil hne
  have hindex : index width (retreat width s.cursor) = base + line.length - 1 := by
    rw [h.onScreen.index_retreat (by rw [h.cursor_eq]; omega), h.cursor_eq]
  have hgrid : ∀ c, c ≠ retreat width s.cursor →
      (s.type width height Ascii.backspace).grid c = if c = s.cursor then none else s.grid c := by
    intro c hc
    change put (erase s.grid s.cursor) (retreat width s.cursor) _ c = _
    rw [put, Function.update_of_ne hc, erase, Function.update_apply]
  have hlength : line.dropLast.length = line.length - 1 := List.length_dropLast
  -- cells apart from the two cursors keep what they show
  have hnext : ∀ c, index width c ≠ base + line.length - 1 → c ≠ retreat width s.cursor := by
    rintro c hc rfl
    exact hc hindex
  refine ⟨?_, ?_, type_grid_cursor (by decide), ?_, ?_, ?_⟩
  · rw [type_cursor]
    exact h.onScreen.retreat
  · rw [type_cursor, hlength]
    exact hindex.trans (Nat.add_sub_assoc hpos base)
  · intro c hc k ch hch hk
    have hlt : k < line.length - 1 := hlength ▸ (List.getElem?_eq_some_iff.mp hch).1
    rw [hgrid c (hnext c (by omega)), if_neg (h.ne_cursor (by omega))]
    rw [List.getElem?_dropLast, if_pos hlt] at hch
    exact h.text c hc k ch hch hk
  · intro c hc hlt
    rw [hgrid c (hnext c (by omega)), if_neg (h.ne_cursor (by omega))]
    exact h.before c hc hlt
  · intro c hc hlt
    rw [hlength] at hlt
    rw [hgrid c (hnext c (by omega))]
    split_ifs with hcursor
    · exact .inl rfl
    · have hother : index width c ≠ base + line.length := fun heq =>
        hcursor (hc.index_injective h.onScreen (heq.trans h.cursor_eq.symm))
      exact h.beyond c hc (by omega)

end ShowsLine

end TextScreen

end Bitnos
