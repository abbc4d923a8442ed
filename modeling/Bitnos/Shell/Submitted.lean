/-
# The lines that are run

Seen from the keyboard, a text typed into the shell is a sequence of lines, each edited as
far as its newline. As long as no line fills the buffer and no zero byte is typed, these
are the lines `Exec` is called with, one after another.
-/

import Bitnos.Shell.Terminal

namespace Bitnos

open Graphics PartialRun

/-- The lines a typed text completes, when some of a line is there already. -/
def submitted : List (BitVec 8) → List (BitVec 8) → List (List (BitVec 8))
  | _, [] => []
  | text, ch :: chars =>
    if ch = Ascii.newline then text :: submitted [] chars else submitted (editText text ch) chars

/-- No line of a typed text leaves the terminator without room, and no zero byte is typed. -/
def Roomy : List (BitVec 8) → List (BitVec 8) → Prop
  | _, [] => True
  | text, ch :: chars =>
    (ch ≠ Ascii.newline → ch ≠ Ascii.backspace → text.length < kLineLength - 1 ∧ ch ≠ Ascii.nul) ∧
      Roomy (editText text ch) chars

instance : (text chars : List (BitVec 8)) → Decidable (Roomy text chars)
  | _, [] => inferInstanceAs (Decidable True)
  | text, ch :: chars =>
    have := instDecidableRoomy (editText text ch) chars
    inferInstanceAs (Decidable (_ ∧ _))

section

variable {text chars chars' : List (BitVec 8)}

theorem roomy_append : Roomy text (chars ++ chars') ↔
    Roomy text chars ∧ Roomy (chars.foldl editText text) chars' := by
  induction chars generalizing text with
  | nil => exact (and_iff_right trivial).symm
  | cons ch chars ih => rw [List.cons_append, Roomy, Roomy, ih, and_assoc, List.foldl_cons]

/-- Right after a newline the line is empty. -/
theorem foldl_editText_of_getLast (hlast : ∀ ch ∈ chars.getLast?, ch = Ascii.newline) :
    chars.foldl editText [] = [] := by
  rcases List.eq_nil_or_concat chars with rfl | ⟨done, ch, rfl⟩
  · rfl
  · rw [List.concat_eq_append] at hlast ⊢
    rw [List.foldl_concat, hlast ch List.getLast?_concat]
    exact if_pos rfl

end

namespace Terminal

variable {ε : Type*} {font : Font} {respond : Executor ε} {size : RectSize} {t u : Terminal ε}
  {ch : BitVec 8} {text chars : List (BitVec 8)}

/-- One call of `PutChar` runs what the actions of the shell say. -/
theorem putChar_fields (hstep : t.putChar font respond ch = some u) :
    u.shell = (t.shell.putChar ch).2 ∧
      u.executed = t.executed ++ (t.shell.putChar ch).1.filterMap ShellAction.executed? := by
  obtain ⟨out, -, rfl⟩ := Option.map_eq_some_iff.mp hstep
  exact ⟨rfl, rfl⟩

/-- The shell edits its line while the text is edited. -/
theorem editStep_of_putChar (text : List (BitVec 8)) (hstep : t.putChar font respond ch = some u) :
    editStep ⟨t.shell, text⟩ ch = some ⟨u.shell, editText text ch⟩ := by
  rw [(putChar_fields hstep).1, editStep]

/-- A character other than a newline runs nothing. -/
theorem executed_of_ne_newline (hcur : t.shell.cur ≤ kLineLength) (hn : ch ≠ Ascii.newline)
    (hstep : t.putChar font respond ch = some u) : u.executed = t.executed := by
  rw [(putChar_fields hstep).2]
  rcases DebugShell.putChar_editing hcur hn with hignored | ⟨shell, hecho, -⟩
  · rw [hignored]
    exact List.append_nil _
  · rw [hecho]
    exact List.append_nil _

/-- A newline runs the line the shell is in step with. -/
theorem executed_newline (h : InStep ⟨t.shell, text⟩)
    (hstep : t.putChar font respond Ascii.newline = some u) :
    ∃ buf, u.executed = t.executed ++ [buf] ∧ execLine buf = some text := by
  obtain ⟨buf, hactions, hline⟩ := h.runs
  refine ⟨buf, ?_, hline⟩
  rw [(putChar_fields hstep).2, show (t.shell.putChar Ascii.newline).1 = _ from hactions]
  rfl

/-- A typed text runs the lines it completes. -/
theorem executed_run (hcur : t.shell.cur ≤ kLineLength) (h : InStep ⟨t.shell, text⟩)
    (hroom : Roomy text chars) (hrun : run (putChar font respond) t chars = some u) :
    InStep ⟨u.shell, chars.foldl editText text⟩ ∧
      u.executed.map execLine = t.executed.map execLine ++ (submitted text chars).map some := by
  induction chars generalizing t text with
  | nil =>
    obtain rfl := Option.some.inj hrun
    exact ⟨h, (List.append_nil _).symm⟩
  | cons ch chars ih =>
    obtain ⟨v, hstep, htail⟩ := Option.bind_eq_some_iff.mp hrun
    have hedit := editStep_of_putChar text hstep
    have hv : v.shell.cur ≤ kLineLength := editStep_le hcur hedit
    obtain ⟨hlast, hlines⟩ := ih hv (h.keep hcur hroom.1 hedit) hroom.2 htail
    refine ⟨hlast, ?_⟩
    rw [hlines, submitted]
    split_ifs with hn
    · subst hn
      obtain ⟨buf, hexecuted, hline⟩ := executed_newline h hstep
      rw [hexecuted, List.map_append, List.append_assoc, List.map_singleton, hline]
      rfl
    · rw [executed_of_ne_newline hcur hn hstep]

/-- What holds of the text after each part of what is typed holds of the line all along. -/
theorem along_line {P : List (BitVec 8) → Prop} (hcur : t.shell.cur ≤ kLineLength)
    (h : InStep ⟨t.shell, text⟩) (hroom : Roomy text chars)
    (hline : ∀ done, done <+: chars → P (done.foldl editText text)) :
    Along (putChar font respond) (fun u => P u.shell.line) t chars := by
  have hnow : P t.shell.line := by
    rw [h.line_eq]
    exact hline [] List.nil_prefix
  induction chars generalizing t text with
  | nil => exact hnow
  | cons ch chars ih =>
    refine ⟨hnow, fun u hstep => ?_⟩
    have hedit := editStep_of_putChar text hstep
    have hnext := h.keep hcur hroom.1 hedit
    have hlater (done) (hdone : done <+: chars) : P (done.foldl editText (editText text ch)) :=
      hline (ch :: done) (List.cons_prefix_cons.mpr ⟨rfl, hdone⟩)
    refine ih (editStep_le hcur hedit) hnext hroom.2 hlater ?_
    rw [hnext.line_eq]
    exact hlater [] List.nil_prefix

theorem inStep_boot (size : RectSize) (garbage : Vector (BitVec 8) kLineLength) (env : ε) :
    InStep ⟨(boot font size garbage env).shell, []⟩ :=
  (inStep_iff rfl).mpr ⟨kLineLength_pos, List.not_mem_nil⟩

end Terminal

end Bitnos
