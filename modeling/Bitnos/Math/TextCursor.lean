/-
# A cursor on a screen of text cells

Cells are numbered line by line. Typing advances the cursor to the next cell and
erasing retreats to the previous one. The screen does not scroll: past the last
cell the cursor goes to the start of the last line, and before the first cell to
the end of the first line. Retreating as often as one advanced therefore leads back
as long as the last cell is not passed, and otherwise back to the same column only.
-/

import Mathlib.Data.Nat.ModEq
import Mathlib.Logic.Function.Iterate

namespace TextCursor

/-- A cell by its column and its row. -/
@[ext]
structure Cell where
  col : ℕ
  row : ℕ
  deriving DecidableEq

/-- The cell lies on a screen of the given size. -/
structure OnScreen (width height : ℕ) (c : Cell) : Prop where
  col_lt : c.col < width
  row_lt : c.row < height

/-- To the start of the next line, if there is one, else of this line. -/
def newline (height : ℕ) (c : Cell) : Cell :=
  ⟨0, if c.row < height - 1 then c.row + 1 else c.row⟩

/-- To the next cell. -/
def advance (width height : ℕ) (c : Cell) : Cell :=
  if c.col < width - 1 then ⟨c.col + 1, c.row⟩ else newline height c

/-- To the previous cell. -/
def retreat (width : ℕ) (c : Cell) : Cell :=
  if 0 < c.col then ⟨c.col - 1, c.row⟩ else ⟨width - 1, c.row - 1⟩

/-- The number of the cell. -/
def index (width : ℕ) (c : Cell) : ℕ := width * c.row + c.col

variable {width height : ℕ} {c d : Cell}

namespace OnScreen

theorem newline (h : OnScreen width height c) : OnScreen width height (newline height c) where
  col_lt := (Nat.zero_le _).trans_lt h.col_lt
  row_lt := by
    have hrow := h.row_lt
    rw [TextCursor.newline]
    dsimp only
    split_ifs <;> omega

theorem advance (h : OnScreen width height c) :
    OnScreen width height (advance width height c) := by
  unfold TextCursor.advance
  split_ifs with hcol
  · exact ⟨by dsimp only; omega, h.row_lt⟩
  · exact h.newline

theorem retreat (h : OnScreen width height c) : OnScreen width height (retreat width c) := by
  have hcol := h.col_lt
  have hrow := h.row_lt
  unfold TextCursor.retreat
  split_ifs
  · exact ⟨by dsimp only; omega, hrow⟩
  · exact ⟨by dsimp only; omega, by dsimp only; omega⟩

theorem iterate {f : Cell → Cell} (hf : ∀ c, OnScreen width height c → OnScreen width height (f c))
    (h : OnScreen width height c) (n : ℕ) : OnScreen width height (f^[n] c) :=
  Function.Iterate.rec _ h hf n

theorem index_mod (h : OnScreen width height c) : index width c % width = c.col := by
  rw [index, Nat.mul_add_mod, Nat.mod_eq_of_lt h.col_lt]

theorem index_lt (h : OnScreen width height c) : index width c < width * height := by
  have hrows : width * (c.row + 1) ≤ width * height := Nat.mul_le_mul_left _ h.row_lt
  have hcol := h.col_lt
  rw [Nat.mul_succ] at hrows
  rw [index]
  omega

theorem index_injective (hc : OnScreen width height c) (hd : OnScreen width height d)
    (heq : index width c = index width d) : c = d := by
  have hcol : c.col = d.col := by rw [← hc.index_mod, heq, hd.index_mod]
  rw [index, index, hcol] at heq
  have hpos : 0 < width := (Nat.zero_le _).trans_lt hc.col_lt
  exact Cell.ext hcol (Nat.eq_of_mul_eq_mul_left hpos (Nat.add_right_cancel heq))

/-! ### One step -/

theorem index_advance (h : OnScreen width height c) (hnext : index width c + 1 < width * height) :
    index width (TextCursor.advance width height c) = index width c + 1 := by
  have hcol := h.col_lt
  rw [index] at hnext
  unfold TextCursor.advance
  split_ifs with hwithin
  · rfl
  · have hfull : width * c.row + width = width * (c.row + 1) := (Nat.mul_succ ..).symm
    have hmore : c.row + 1 < height := by
      by_contra hlast
      have := Nat.mul_le_mul_left width (Nat.le_of_not_lt hlast)
      omega
    rw [TextCursor.newline, index, index]
    dsimp only
    rw [if_pos (by omega)]
    omega

theorem index_advance_modEq (h : OnScreen width height c) :
    index width (TextCursor.advance width height c) ≡ index width c + 1 [MOD width] := by
  have hcol := h.col_lt
  unfold TextCursor.advance
  split_ifs with hwithin
  · rfl
  · have hfull : index width c + 1 = width * (c.row + 1) := by
      rw [index, Nat.mul_succ]
      omega
    rw [hfull]
    exact (Nat.mul_mod_right ..).trans (Nat.mul_mod_right ..).symm

theorem index_retreat (h : OnScreen width height c) (hpos : 0 < index width c) :
    index width (TextCursor.retreat width c) = index width c - 1 := by
  have hcol := h.col_lt
  unfold TextCursor.retreat
  split_ifs with hwithin
  · rw [index, index]
    dsimp only
    omega
  · obtain ⟨row, hrow⟩ : ∃ row, c.row = row + 1 := by
      apply Nat.exists_eq_succ_of_ne_zero
      intro hrow
      rw [index, hrow] at hpos
      omega
    rw [index, index, hrow, Nat.mul_succ]
    dsimp only
    rw [Nat.add_sub_cancel]
    omega

theorem index_retreat_modEq (h : OnScreen width height c) :
    index width (TextCursor.retreat width c) + 1 ≡ index width c [MOD width] := by
  have hcol := h.col_lt
  unfold TextCursor.retreat
  split_ifs with hwithin
  · have hsame : index width ⟨c.col - 1, c.row⟩ + 1 = index width c := by
      rw [index, index]
      dsimp only
      omega
    rw [hsame]
  · have hstart : index width c = width * c.row := by
      rw [index]
      omega
    have hend : index width ⟨width - 1, c.row - 1⟩ + 1 = width * (c.row - 1 + 1) := by
      rw [index, Nat.mul_succ]
      dsimp only
      omega
    rw [hstart, hend]
    exact (Nat.mul_mod_right ..).trans (Nat.mul_mod_right ..).symm

/-! ### Many steps -/

theorem index_advance_iterate (h : OnScreen width height c) {n : ℕ}
    (hroom : index width c + n < width * height) :
    index width ((TextCursor.advance width height)^[n] c) = index width c + n := by
  induction n with
  | zero => rfl
  | succ n ih =>
    have hn := ih (by omega)
    rw [Function.iterate_succ_apply',
      (h.iterate (fun _ => advance) n).index_advance (by omega), hn, Nat.add_assoc]

theorem index_advance_iterate_modEq (h : OnScreen width height c) (n : ℕ) :
    index width ((TextCursor.advance width height)^[n] c) ≡ index width c + n [MOD width] := by
  induction n with
  | zero => rfl
  | succ n ih =>
    rw [Function.iterate_succ_apply', ← Nat.add_assoc]
    exact (h.iterate (fun _ => advance) n).index_advance_modEq.trans (ih.add_right 1)

theorem index_retreat_iterate (h : OnScreen width height c) {n : ℕ} (hroom : n ≤ index width c) :
    index width ((TextCursor.retreat width)^[n] c) = index width c - n := by
  induction n with
  | zero => rfl
  | succ n ih =>
    have hn := ih (by omega)
    rw [Function.iterate_succ_apply',
      (h.iterate (fun _ => retreat) n).index_retreat (by omega), hn, Nat.sub_sub]

theorem index_retreat_iterate_modEq (h : OnScreen width height c) (n : ℕ) :
    index width ((TextCursor.retreat width)^[n] c) + n ≡ index width c [MOD width] := by
  induction n with
  | zero => rfl
  | succ n ih =>
    rw [Function.iterate_succ_apply', Nat.add_comm n 1, ← Nat.add_assoc]
    exact ((h.iterate (fun _ => retreat) n).index_retreat_modEq.add_right n).trans ih

/-- Retreating past the first cell stays on the first line. -/
theorem row_retreat_iterate (h : OnScreen width height c) {n : ℕ} (hpast : index width c ≤ n) :
    ((TextCursor.retreat width)^[n] c).row = 0 := by
  obtain ⟨k, rfl⟩ := Nat.exists_eq_add_of_le' hpast
  rw [Function.iterate_add_apply]
  have hfirst : ((TextCursor.retreat width)^[index width c] c).row = 0 := by
    have hindex := h.index_retreat_iterate le_rfl
    rw [Nat.sub_self, index, Nat.add_eq_zero_iff, Nat.mul_eq_zero] at hindex
    exact hindex.1.resolve_left ((Nat.zero_le _).trans_lt h.col_lt).ne'
  refine Function.Iterate.rec (fun d : Cell => d.row = 0) hfirst ?_ k
  intro d hd
  unfold TextCursor.retreat
  split_ifs
  · exact hd
  · exact congrArg (· - 1) hd

/-- Retreating after advancing leads back to the column. -/
theorem col_retreat_advance (h : OnScreen width height c) (n : ℕ) :
    ((TextCursor.retreat width)^[n] ((TextCursor.advance width height)^[n] c)).col = c.col := by
  have hon := h.iterate (fun _ => advance) n
  have hback := hon.index_retreat_iterate_modEq n
  have hmod := (hback.trans (h.index_advance_iterate_modEq n)).add_right_cancel'
  rw [← (hon.iterate (fun _ => retreat) n).index_mod, ← h.index_mod]
  exact hmod

/-- **Advancing and retreating.** Retreating `n` times undoes advancing `n` times unless
the last cell was passed; on the first line it does so even then. -/
theorem retreat_advance_iff (h : OnScreen width height c) (n : ℕ) :
    (TextCursor.retreat width)^[n] ((TextCursor.advance width height)^[n] c) = c ↔
      c.row = 0 ∨ index width c + n < width * height := by
  have hon := h.iterate (fun _ => advance) n
  have hback := hon.iterate (fun _ => retreat) n
  have hcol := h.col_retreat_advance n
  by_cases hroom : index width c + n < width * height
  · refine iff_of_true (hback.index_injective h ?_) (.inr hroom)
    have hforth := h.index_advance_iterate hroom
    rw [hon.index_retreat_iterate (by omega), hforth, Nat.add_sub_cancel]
  · rw [or_iff_left hroom]
    have hlt := hon.index_lt
    rcases Nat.le_total n (index width ((TextCursor.advance width height)^[n] c)) with hle | hle
    · -- the cursor is led back less far than it was advanced, but to the same column
      have hindex := hon.index_retreat_iterate hle
      refine iff_of_false ?_ ?_
      · intro heq
        rw [heq] at hindex
        omega
      · intro hrow
        have hstart : index width c = c.col := by rw [index, hrow, Nat.mul_zero, Nat.zero_add]
        have hatleast := Nat.le_add_left
          ((TextCursor.retreat width)^[n] ((TextCursor.advance width height)^[n] c)).col
          (width * ((TextCursor.retreat width)^[n] ((TextCursor.advance width height)^[n] c)).row)
        rw [← index, hcol, hindex] at hatleast
        omega
    · have hrow := hon.row_retreat_iterate hle
      exact ⟨fun heq => heq ▸ hrow, fun hzero => Cell.ext hcol (hrow.trans hzero.symm)⟩

/-- As long as the last cell is not passed, each retreat undoes the last advance. -/
theorem retreat_advance_of_le (h : OnScreen width height c) {k n : ℕ} (hk : k ≤ n)
    (hroom : index width c + n < width * height) :
    (TextCursor.retreat width)^[k] ((TextCursor.advance width height)^[n] c) =
      (TextCursor.advance width height)^[n - k] c := by
  have hon := h.iterate (fun _ => advance) (n - k)
  have hroom' : index width ((TextCursor.advance width height)^[n - k] c) + k < width * height := by
    rw [h.index_advance_iterate (by omega)]
    omega
  have hsplit : (TextCursor.advance width height)^[n] c =
      (TextCursor.advance width height)^[k] ((TextCursor.advance width height)^[n - k] c) := by
    rw [← Function.iterate_add_apply, Nat.add_sub_cancel' hk]
  rw [hsplit]
  exact (hon.retreat_advance_iff k).mpr (.inr hroom')

end OnScreen

end TextCursor
