/-
# Erasing what was typed

Backspaces take the cursor back over the characters just printed. The console does
not scroll, so this works as long as printing does not pass the last cell; past it,
the cursor of any line but the first is lost.
-/

import Bitnos.Console.Debug

namespace Bitnos

open Graphics

namespace DebugConsole

/-- The character is neither the end of a string nor a control character of the console. -/
def Plain (ch : BitVec 8) : Prop := ch ≠ Ascii.nul ∧ ch ≠ Ascii.newline ∧ ch ≠ Ascii.backspace

instance : DecidablePred Plain := fun _ => inferInstanceAs (Decidable (_ ∧ _ ∧ _))

/-- The number of the cell the cursor is on. -/
def position (cons : DebugConsole) : ℕ := cons.size.width.toNat * cons.cur.y.toNat + cons.cur.x.toNat

variable {font : Font} {cons next : DebugConsole} {size : RectSize} {t : List (BitVec 8)}

theorem moved_backspace (width height : ℕ) (c : TextCursor.Cell) :
    moved width height Ascii.backspace c = TextCursor.retreat width c := rfl

theorem cur_eq_iff : cons.cur = next.cur ↔ cons.cell = next.cell := by
  simp only [Point.ext_iff, TextCursor.Cell.ext_iff, cell, BitVec.toNat_inj]

theorem construct_valid (hwidth : 0 < size.width.toNat ∧ size.width.toNat ≤ 2 ^ 31)
    (hheight : 0 < size.height.toNat ∧ size.height.toNat ≤ 2 ^ 31) : (construct size).Valid where
  width_le := hwidth.2
  height_le := hheight.2
  onScreen := ⟨hwidth.1, hheight.1⟩

/-- Characters that all move the cursor in the same way. -/
theorem Valid.cell_putChars {move : TextCursor.Cell → TextCursor.Cell} (hsize : cons.size = size)
    (h : cons.Valid)
    (hmove : ∀ ch ∈ t, ∀ c, moved size.width.toNat size.height.toNat ch c = move c) :
    (cons.putChars font t).2.cell = move^[t.length] cons.cell := by
  induction t generalizing cons with
  | nil => rfl
  | cons ch t ih =>
    have hrest := ih (putChar_size.trans hsize) (h.putChar font ch)
      fun ch' hch' => hmove ch' (List.mem_cons_of_mem ch hch')
    subst hsize
    rw [putChars_cons, hrest, h.cell_putChar, hmove ch List.mem_cons_self, List.length_cons,
      Function.iterate_succ_apply]

theorem Valid.cell_putStr (h : cons.Valid) (ht : ∀ ch ∈ t, Plain ch) :
    (cons.putStr font t).2.cell =
      (TextCursor.advance cons.size.width.toNat cons.size.height.toNat)^[t.length] cons.cell := by
  rw [putStr_eq fun ch hch => (ht ch hch).1]
  refine h.cell_putChars rfl fun ch hch c => ?_
  rw [moved, if_neg (ht ch hch).2.1, if_neg (ht ch hch).2.2]

theorem Valid.cell_backspaces (h : cons.Valid) (k : ℕ) :
    (cons.putChars font (List.replicate k Ascii.backspace)).2.cell =
      (TextCursor.retreat cons.size.width.toNat)^[k] cons.cell := by
  have hback : ∀ ch ∈ List.replicate k Ascii.backspace, ∀ c,
      moved cons.size.width.toNat cons.size.height.toNat ch c =
        TextCursor.retreat cons.size.width.toNat c := by
    intro ch hch c
    rw [List.eq_of_mem_replicate hch, moved_backspace]
  rw [h.cell_putChars rfl hback, List.length_replicate]

end DebugConsole

open DebugConsole

/-- **Typing and then erasing.** In every state the console reaches, printing a text and as
many backspaces leaves the cursor where it was exactly when it was on the first line or the
text ends before the last cell of the screen. In the latter case every backspace on the
way takes the cursor to the cell of the character it erases. -/
theorem erase_typed_iff (font : Font) {size : RectSize}
    (hwidth : 0 < size.width.toNat ∧ size.width.toNat ≤ 2 ^ 31)
    (hheight : 0 < size.height.toNat ∧ size.height.toNat ≤ 2 ^ 31) (chars : List (BitVec 8))
    {t : List (BitVec 8)} (ht : ∀ ch ∈ t, Plain ch) :
    let cons := ((construct size).putChars font chars).2
    let erased := fun k =>
      ((cons.putStr font t).2.putChars font (List.replicate k Ascii.backspace)).2
    ((erased t.length).cur = cons.cur ↔ cons.cur.y = 0 ∨
        cons.position + t.length < size.width.toNat * size.height.toNat) ∧
      (cons.position + t.length < size.width.toNat * size.height.toNat →
        ∀ k ≤ t.length, (erased k).cur = (cons.putStr font (t.take (t.length - k))).2.cur) := by
  intro cons erased
  have hvalid : cons.Valid := (construct_valid hwidth hheight).putChars font chars
  have hsize : cons.size = size := putChars_size
  have htyped : (cons.putStr font t).2.Valid := hvalid.putChars font _
  have htypedSize : (cons.putStr font t).2.size = size := putChars_size.trans hsize
  have herased : ∀ k, (erased k).cell = (TextCursor.retreat size.width.toNat)^[k]
      ((TextCursor.advance size.width.toNat size.height.toNat)^[t.length] cons.cell) := by
    intro k
    rw [htyped.cell_backspaces, htypedSize, hvalid.cell_putStr ht, hsize]
  have hon := hsize ▸ hvalid.onScreen
  have hposition : cons.position = TextCursor.index size.width.toNat cons.cell := by
    rw [← hsize]
    rfl
  rw [hposition]
  constructor
  · have hrow : cons.cur.y = 0 ↔ cons.cell.row = 0 := BitVec.toNat_inj.symm
    rw [cur_eq_iff, herased, hrow]
    exact hon.retreat_advance_iff t.length
  · intro hroom k hk
    have hplain : ∀ ch ∈ t.take (t.length - k), Plain ch := fun ch hch => ht ch (List.mem_of_mem_take hch)
    rw [cur_eq_iff, herased, hon.retreat_advance_of_le hk hroom, hvalid.cell_putStr hplain, hsize,
      List.length_take, Nat.min_eq_left (Nat.sub_le ..)]

theorem erase_typed_iff_hello :
    let cons := ((construct ⟨80, 25⟩).putChars (fun _ => 0) [0x24, 0x20]).2
    let typed := (cons.putStr (fun _ => 0) [0x68, 0x69]).2
    (typed.putChars (fun _ => 0) (List.replicate 2 Ascii.backspace)).2.cur = cons.cur :=
  (erase_typed_iff (fun _ => 0) ⟨by decide, by decide⟩ ⟨by decide, by decide⟩ [0x24, 0x20]
    (by decide)).1.mpr (.inl (by decide))

/-- On the last line, typing in the last cell and erasing ends one line higher. -/
theorem not_restored_last_cell :
    let cons := ((construct ⟨2, 2⟩).putChars (fun _ => 0) [0x61, 0x61, 0x61]).2
    let typed := (cons.putStr (fun _ => 0) [0x61]).2
    cons.cur = ⟨1, 1⟩ ∧ (typed.putChars (fun _ => 0) [Ascii.backspace]).2.cur = ⟨1, 0⟩ := by
  decide

end Bitnos
