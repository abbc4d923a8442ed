/-
# Line editing in the shell

`DebugShell::PutChar` collects characters in a buffer of `kLineLength` bytes. It
ignores whatever is typed once the buffer is full, newline and backspace included, so
a full line can neither be run nor shortened. A zero byte typed into a line ends it for
`Exec`.
-/

import Bitnos.Math.Run
import Bitnos.Shell.Split

namespace Bitnos

/-- `DebugShell::kLineLength` -/
def kLineLength : ℕ := 512

theorem kLineLength_pos : 0 < kLineLength := by decide

/-- `kDefaultPrompt` -/
def kDefaultPrompt : List (BitVec 8) := [0x24, 0x20]

/-- The fields of `DebugShell`, except for the console it prints on. -/
structure DebugShell where
  cur : ℕ
  buf : Vector (BitVec 8) kLineLength
  promptStr : List (BitVec 8)

/-- What the shell does besides changing its fields. -/
inductive ShellAction
  /-- `cons_.PutChar` -/
  | putChar (ch : BitVec 8)
  /-- `cons_.PutStr` -/
  | putStr (s : List (BitVec 8))
  /-- `Exec`, with the buffer it reads -/
  | exec (buf : Vector (BitVec 8) kLineLength)

namespace DebugShell

/-- The constructor, which leaves the buffer as it was. -/
def construct (garbage : Vector (BitVec 8) kLineLength) : List ShellAction × DebugShell :=
  ([.putStr kDefaultPrompt], ⟨0, garbage, kDefaultPrompt⟩)

/-- `PutChar` -/
def putChar (shell : DebugShell) (ch : BitVec 8) : List ShellAction × DebugShell :=
  if h : shell.cur > kLineLength - 1 then
    ([], shell)
  else
    have hcur : shell.cur < kLineLength := by
      unfold kLineLength at *
      omega
    if ch = Ascii.newline then
      let buf := shell.buf.set shell.cur Ascii.nul
      ([.putChar Ascii.newline, .exec buf, .putStr shell.promptStr], { shell with cur := 0, buf := buf })
    else if ch = Ascii.backspace then
      if shell.cur = 0 then ([], shell)
      else ([.putChar ch], { shell with cur := shell.cur - 1 })
    else
      ([.putChar ch], { shell with cur := shell.cur + 1, buf := shell.buf.set shell.cur ch })

/-- One call of `PutChar` after another. -/
def putChars : DebugShell → List (BitVec 8) → List ShellAction × DebugShell
  | shell, [] => ([], shell)
  | shell, ch :: chars =>
    let first := shell.putChar ch
    let rest := putChars first.2 chars
    (first.1 ++ rest.1, rest.2)

/-- `buf_[0..cur_)` -/
def line (shell : DebugShell) : List (BitVec 8) := shell.buf.toList.take shell.cur

end DebugShell

/-- The string `Exec` finds in `buf_`. Without a zero byte `strlen` reads past the array. -/
def execLine (buf : Vector (BitVec 8) kLineLength) : Option (List (BitVec 8)) :=
  if Ascii.nul ∈ buf.toList then some (buf.toList.takeWhile (· != Ascii.nul)) else none

/-- What a character does to the text of a line that holds up to `kLineLength`
characters. -/
def editText (text : List (BitVec 8)) (ch : BitVec 8) : List (BitVec 8) :=
  if ch = Ascii.newline then []
  else if ch = Ascii.backspace then text.dropLast
  else if text.length < kLineLength then text ++ [ch]
  else text

namespace DebugShell

variable {shell : DebugShell} {ch : BitVec 8} {chars : List (BitVec 8)}

/-! ### One character -/

theorem full_iff : shell.cur > kLineLength - 1 ↔ kLineLength ≤ shell.cur := by
  unfold kLineLength
  omega

theorem putChar_full (hfull : kLineLength ≤ shell.cur) : shell.putChar ch = ([], shell) := by
  rw [putChar, dif_pos (full_iff.mpr hfull)]

theorem putChar_newline (hcur : shell.cur < kLineLength) : shell.putChar Ascii.newline =
    ([.putChar Ascii.newline, .exec (shell.buf.set shell.cur Ascii.nul), .putStr shell.promptStr],
      { shell with cur := 0, buf := shell.buf.set shell.cur Ascii.nul }) := by
  rw [putChar, dif_neg (mt full_iff.mp hcur.not_ge), if_pos rfl]

theorem putChar_backspace (hcur : shell.cur < kLineLength) (hpos : shell.cur ≠ 0) :
    shell.putChar Ascii.backspace =
      ([.putChar Ascii.backspace], { shell with cur := shell.cur - 1 }) := by
  rw [putChar, dif_neg (mt full_iff.mp hcur.not_ge), if_neg (by decide), if_pos rfl, if_neg hpos]

theorem putChar_backspace_empty (hempty : shell.cur = 0) :
    shell.putChar Ascii.backspace = ([], shell) := by
  have hroom : ¬ shell.cur > kLineLength - 1 := by omega
  rw [putChar, dif_neg hroom, if_neg (by decide), if_pos rfl, if_pos hempty]

theorem putChar_ordinary (hcur : shell.cur < kLineLength) (hn : ch ≠ Ascii.newline)
    (hb : ch ≠ Ascii.backspace) : shell.putChar ch =
      ([.putChar ch], { shell with cur := shell.cur + 1, buf := shell.buf.set shell.cur ch }) := by
  rw [putChar, dif_neg (mt full_iff.mp hcur.not_ge), if_neg hn, if_neg hb]

/-! ### The text of the line -/

theorem length_line (hcur : shell.cur ≤ kLineLength) : shell.line.length = shell.cur := by
  rw [line, List.length_take, Vector.length_toList, Nat.min_eq_left hcur]

theorem editText_ordinary {text : List (BitVec 8)} (hn : ch ≠ Ascii.newline)
    (hb : ch ≠ Ascii.backspace) (hroom : text.length < kLineLength) :
    editText text ch = text ++ [ch] := by
  rw [editText, if_neg hn, if_neg hb, if_pos hroom]

/-- Unless the buffer is full, a character edits the line. -/
theorem line_putChar (hcur : shell.cur < kLineLength) :
    (shell.putChar ch).2.line = editText shell.line ch := by
  rcases DebugConsole.char_cases ch with rfl | rfl | ⟨hn, hb⟩
  · rw [putChar_newline hcur]
    rfl
  · change _ = shell.line.dropLast
    by_cases hempty : shell.cur = 0
    · rw [putChar_backspace_empty hempty, line, hempty]
      rfl
    · rw [putChar_backspace hcur hempty, line, line, List.dropLast_take]
      simpa using hcur
  · rw [putChar_ordinary hcur hn hb, editText_ordinary hn hb (by rwa [length_line hcur.le])]
    simp only [line, Vector.toList_set]
    rw [List.take_add_one, List.take_set_of_le le_rfl, List.getElem?_set_self (by simpa using hcur)]
    rfl

/-- The cursor never runs past the buffer. -/
theorem cur_putChar_le (hcur : shell.cur ≤ kLineLength) : (shell.putChar ch).2.cur ≤ kLineLength := by
  rcases hcur.lt_or_eq with hlt | hfull
  · rcases DebugConsole.char_cases ch with rfl | rfl | ⟨hn, hb⟩
    · rw [putChar_newline hlt]
      exact Nat.zero_le _
    · by_cases hempty : shell.cur = 0
      · rwa [putChar_backspace_empty hempty]
      · rw [putChar_backspace hlt hempty]
        exact (Nat.sub_le ..).trans hcur
    · rw [putChar_ordinary hlt hn hb]
      exact hlt
  · rwa [putChar_full hfull.ge]

/-! ### What is executed -/

theorem takeWhile_append_stop {p : BitVec 8 → Bool} {stop : BitVec 8} (hstop : p stop = false)
    (text rest : List (BitVec 8)) : (text ++ stop :: rest).takeWhile p = text.takeWhile p := by
  induction text with
  | nil => exact List.takeWhile_cons_of_neg (by simp [hstop])
  | cons ch text ih =>
    by_cases hch : p ch
    · rw [List.cons_append, List.takeWhile_cons_of_pos hch, List.takeWhile_cons_of_pos hch, ih]
    · rw [List.cons_append, List.takeWhile_cons_of_neg hch, List.takeWhile_cons_of_neg hch]

/-- A newline makes `Exec` see the line up to its first zero byte. -/
theorem execLine_set (hcur : shell.cur < kLineLength) :
    execLine (shell.buf.set shell.cur Ascii.nul) =
      some (shell.line.takeWhile (· != Ascii.nul)) := by
  have hlt : shell.cur < shell.buf.toList.length := by simpa using hcur
  rw [execLine, Vector.toList_set, List.set_eq_take_append_cons_drop, if_pos hlt,
    if_pos (List.mem_append_right _ List.mem_cons_self), takeWhile_append_stop (by decide)]
  rfl

end DebugShell

/-! ### Editing as intended -/

/-- The shell together with the text its line ought to have. -/
structure Editing where
  shell : DebugShell
  text : List (BitVec 8)

/-- The shell as constructed, with an empty text. -/
def Editing.start (garbage : Vector (BitVec 8) kLineLength) : Editing :=
  ⟨(DebugShell.construct garbage).2, []⟩

/-- A character is handed to `PutChar` and edits the text. -/
def editStep (s : Editing) (ch : BitVec 8) : Option Editing :=
  some ⟨(s.shell.putChar ch).2, editText s.text ch⟩

/-- The shell is in step with the text: the buffer holds it, every next character edits the
line as it edits the text, and a newline runs `Exec` on exactly the text. -/
structure InStep (s : Editing) : Prop where
  line_eq : s.shell.line = s.text
  edits : ∀ ch, (s.shell.putChar ch).2.line = editText s.text ch
  runs : ∃ buf, (s.shell.putChar Ascii.newline).1 =
      [.putChar Ascii.newline, .exec buf, .putStr s.shell.promptStr] ∧ execLine buf = some s.text

/-- An ordinary character is typed only where it leaves room for the terminator, and
never a zero byte. -/
def LeavesRoom (s : Editing) (ch : BitVec 8) : Prop :=
  ch ≠ Ascii.newline → ch ≠ Ascii.backspace → s.text.length < kLineLength - 1 ∧ ch ≠ Ascii.nul

variable {s t : Editing} {ch : BitVec 8}

theorem takeWhile_nul_eq_iff {text : List (BitVec 8)} :
    text.takeWhile (· != Ascii.nul) = text ↔ Ascii.nul ∉ text := by
  rw [List.takeWhile_eq_self_iff]
  simp only [bne_iff_ne]
  exact ⟨fun h hmem => h _ hmem rfl, fun h ch hch heq => h (heq ▸ hch)⟩

/-- The shell is in step as long as it has room and no zero byte in its line. -/
theorem inStep_iff (hline : s.shell.line = s.text) :
    InStep s ↔ s.shell.cur < kLineLength ∧ Ascii.nul ∉ s.text := by
  constructor
  · intro h
    obtain ⟨buf, hactions, hexec⟩ := h.runs
    have hlt : s.shell.cur < kLineLength := by
      by_contra hfull
      rw [DebugShell.putChar_full (Nat.le_of_not_lt hfull)] at hactions
      exact absurd hactions (by simp)
    refine ⟨hlt, ?_⟩
    rw [DebugShell.putChar_newline hlt] at hactions
    obtain rfl : s.shell.buf.set s.shell.cur Ascii.nul = buf := by simpa using hactions
    rw [DebugShell.execLine_set hlt, hline, Option.some.injEq] at hexec
    exact takeWhile_nul_eq_iff.mp hexec
  · rintro ⟨hlt, hnul⟩
    refine ⟨hline, fun ch => hline ▸ DebugShell.line_putChar hlt,
      s.shell.buf.set s.shell.cur Ascii.nul, ?_, ?_⟩
    · rw [DebugShell.putChar_newline hlt]
    · rw [DebugShell.execLine_set hlt, hline, takeWhile_nul_eq_iff.mpr hnul]

/-- The cursor of a shell that is in step tells the length of the text. -/
theorem InStep.length_text (h : InStep s) (hle : s.shell.cur ≤ kLineLength) :
    s.text.length = s.shell.cur := by
  rw [← h.line_eq, DebugShell.length_line hle]

theorem editStep_le (hle : s.shell.cur ≤ kLineLength) (hstep : editStep s ch = some t) :
    t.shell.cur ≤ kLineLength := by
  obtain rfl := Option.some.inj hstep
  exact DebugShell.cur_putChar_le hle

/-- One step from a shell that is in step leaves it in step if the text keeps room and has
no zero byte. -/
theorem InStep.editStep_iff (h : InStep s) (hle : s.shell.cur ≤ kLineLength)
    (hstep : editStep s ch = some t) :
    InStep t ↔ (editText s.text ch).length < kLineLength ∧ Ascii.nul ∉ editText s.text ch := by
  obtain rfl := Option.some.inj hstep
  have hnext : (s.shell.putChar ch).2.cur ≤ kLineLength := DebugShell.cur_putChar_le hle
  have hline := h.edits ch
  have hlength : (editText s.text ch).length = (s.shell.putChar ch).2.cur := by
    rw [← hline, DebugShell.length_line hnext]
  rw [inStep_iff hline, hlength]

/-- A character that leaves room keeps the shell in step. -/
theorem InStep.keep (h : InStep s) (hle : s.shell.cur ≤ kLineLength) (hroom : LeavesRoom s ch)
    (hstep : editStep s ch = some t) : InStep t := by
  obtain ⟨hlt, hnul⟩ := (inStep_iff h.line_eq).mp h
  rw [← h.length_text hle] at hlt
  rw [h.editStep_iff hle hstep]
  rcases DebugConsole.char_cases ch with rfl | rfl | ⟨hn, hb⟩
  · exact ⟨kLineLength_pos, List.not_mem_nil⟩
  · change s.text.dropLast.length < kLineLength ∧ Ascii.nul ∉ s.text.dropLast
    rw [List.length_dropLast]
    exact ⟨(Nat.sub_le ..).trans_lt hlt, fun hmem => hnul (List.dropLast_subset _ hmem)⟩
  · obtain ⟨hfree, hplain⟩ := hroom hn hb
    rw [DebugShell.editText_ordinary hn hb hlt, List.length_append, List.mem_append,
      List.mem_singleton, not_or]
    exact ⟨Nat.add_lt_of_lt_sub hfree, hnul, hplain.symm⟩

/-- A character that leaves no room is accepted, and the shell is out of step. -/
theorem InStep.break_of_not_leavesRoom (h : InStep s) (hle : s.shell.cur ≤ kLineLength)
    (hroom : ¬ LeavesRoom s ch) : ∃ t, editStep s ch = some t ∧ ¬ InStep t := by
  obtain ⟨hlt, -⟩ := (inStep_iff h.line_eq).mp h
  rw [← h.length_text hle] at hlt
  unfold LeavesRoom at hroom
  push Not at hroom
  obtain ⟨hn, hb, hspoils⟩ := hroom
  refine ⟨_, rfl, ?_⟩
  rw [h.editStep_iff hle rfl, DebugShell.editText_ordinary hn hb hlt, List.length_append,
    List.mem_append, List.mem_singleton]
  rintro ⟨hfree, hplain⟩
  exact hplain (.inr (hspoils (Nat.lt_sub_of_add_lt hfree)).symm)

/-- **Line editing.** The shell stays in step with the text all along a run exactly when no
ordinary character is typed into a line of `kLineLength - 1` characters and no zero byte is
typed at all. -/
theorem line_editing_iff (garbage : Vector (BitVec 8) kLineLength) (typed : List (BitVec 8)) :
    PartialRun.Along editStep InStep (Editing.start garbage) typed ↔
      PartialRun.EachStep editStep LeavesRoom (Editing.start garbage) typed := by
  have hle : (Editing.start garbage).shell.cur ≤ kLineLength := Nat.zero_le _
  have hstart : InStep (Editing.start garbage) :=
    (inStep_iff rfl).mpr ⟨kLineLength_pos, List.not_mem_nil⟩
  exact PartialRun.along_iff_eachStep (fun s ch t hle hstep => editStep_le hle hstep)
    (fun s ch t hle h hroom hstep => h.keep hle hroom hstep)
    (fun s ch hle h hroom => h.break_of_not_leavesRoom hle hroom) hle hstart

theorem DebugShell.cur_putChars_replicate {shell : DebugShell} {n : ℕ} (hn : ch ≠ Ascii.newline)
    (hb : ch ≠ Ascii.backspace) (hroom : shell.cur + n ≤ kLineLength) :
    (shell.putChars (List.replicate n ch)).2.cur = shell.cur + n := by
  induction n generalizing shell with
  | zero => rfl
  | succ n ih =>
    rw [List.replicate_succ, putChars, putChar_ordinary (by omega) hn hb]
    exact (ih (by dsimp only; omega)).trans (by dsimp only; omega)

/-- A line of `kLineLength` characters can be neither run nor shortened. -/
theorem full_line_stuck :
    let shell := ((DebugShell.construct (Vector.replicate kLineLength 0)).2.putChars
      (List.replicate kLineLength 0x61)).2
    shell.line.length = kLineLength ∧ shell.putChar Ascii.newline = ([], shell) ∧
      shell.putChar Ascii.backspace = ([], shell) := by
  intro shell
  have hcur : shell.cur = kLineLength :=
    (DebugShell.cur_putChars_replicate (by decide) (by decide) (Nat.zero_add _).le).trans
      (Nat.zero_add _)
  exact ⟨(DebugShell.length_line hcur.le).trans hcur, DebugShell.putChar_full hcur.ge,
    DebugShell.putChar_full hcur.ge⟩

end Bitnos
