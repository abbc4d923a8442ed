/-
# The terminal: shell and console together

The shell echoes what is typed on the console, and what its commands write to the standard
output goes there as well. What a command does besides is left open: it works on an
environment, answers with the bytes it writes, and may fail to return. The line being
edited is at all times what the screen shows after the prompt, as long as it stays clear of
the last cell.

The last three fields of a terminal are a record of what happened, kept for stating
theorems; no step looks at them.
-/

import Bitnos.Shell.Edit
import Bitnos.Shell.LineOnScreen

namespace Bitnos

open Graphics DebugConsole PartialRun

/-- What `Exec` does with a buffer: the bytes it hands to `write` and the environment it leaves,
if it returns. -/
abbrev Executor (ε : Type*) := Vector (BitVec 8) kLineLength → ε → Option (List (BitVec 8) × ε)

section Emit

variable {ε : Type*} (respond : Executor ε)

/-- The characters an action of the shell puts on the console. -/
def ShellAction.emit : ShellAction → ε → Option (List (BitVec 8) × ε)
  | .putChar ch, env => some ([ch], env)
  | .putStr s, env => some (s.takeWhile (· != Ascii.nul), env)
  | .exec buf, env => respond buf env

/-- The characters of several actions one after another. -/
def emitAll : List ShellAction → ε → Option (List (BitVec 8) × ε)
  | [], env => some ([], env)
  | action :: actions, env => do
    let first ← action.emit respond env
    let rest ← emitAll actions first.2
    return (first.1 ++ rest.1, rest.2)

/-- The buffer an action executes, if it does. -/
def ShellAction.executed? : ShellAction → Option (Vector (BitVec 8) kLineLength)
  | .exec buf => some buf
  | _ => none

theorem emitAll_newline (buf : Vector (BitVec 8) kLineLength) (prompt : List (BitVec 8)) (env : ε) :
    emitAll respond [.putChar Ascii.newline, .exec buf, .putStr prompt] env =
      (respond buf env).map fun out =>
        (Ascii.newline :: out.1 ++ prompt.takeWhile (· != Ascii.nul), out.2) := by
  cases hrespond : respond buf env with
  | none => simp [emitAll, ShellAction.emit, hrespond]
  | some out => simp [emitAll, ShellAction.emit, hrespond]

/-- What every command keeps is kept by the actions of the shell. -/
theorem emitAll_keeps {P : ε → Prop}
    (hrespond : ∀ buf env out, respond buf env = some out → P env → P out.2)
    {actions : List ShellAction} {env : ε} {out : List (BitVec 8) × ε}
    (hemit : emitAll respond actions env = some out) (henv : P env) : P out.2 := by
  induction actions generalizing env out with
  | nil =>
    obtain rfl := Option.some.inj hemit
    exact henv
  | cons action actions ih =>
    obtain ⟨first, hfirst, hrest⟩ := Option.bind_eq_some_iff.mp hemit
    obtain ⟨rest, hlast, hout⟩ := Option.bind_eq_some_iff.mp hrest
    obtain rfl := Option.some.inj hout
    change P rest.2
    refine ih hlast ?_
    cases action with
    | exec buf => exact hrespond buf env first hfirst henv
    | putChar ch | putStr s =>
      obtain rfl := Option.some.inj hfirst
      exact henv

end Emit

/-- A shell with its console and the environment of its commands. -/
structure Terminal (ε : Type*) where
  shell : DebugShell
  cons : DebugConsole
  env : ε
  /-- the characters handed to the `PutChar` of the console -/
  printed : List (BitVec 8)
  /-- the calls of `Write` the console made -/
  drawn : List PixelWrite
  /-- the buffers `Exec` was called with -/
  executed : List (Vector (BitVec 8) kLineLength)

namespace Terminal

variable {ε : Type*} (font : Font) (respond : Executor ε)

/-- The console prints some characters. -/
def print (t : Terminal ε) (out : List (BitVec 8)) : Terminal ε :=
  let run := t.cons.putChars font out
  { t with cons := run.2, printed := t.printed ++ out, drawn := t.drawn ++ run.1 }

/-- The console and the shell as `MyMain` constructs them, which prints the first prompt. -/
def boot (size : RectSize) (garbage : Vector (BitVec 8) kLineLength) (env : ε) : Terminal ε :=
  print font ⟨(DebugShell.construct garbage).2, construct size, env, [], [], []⟩ kDefaultPrompt

/-- `shell.PutChar` -/
def putChar (t : Terminal ε) (ch : BitVec 8) : Option (Terminal ε) :=
  let result := t.shell.putChar ch
  (emitAll respond result.1 t.env).map fun out =>
    print font
      { t with
        shell := result.2
        env := out.2
        executed := t.executed ++ result.1.filterMap ShellAction.executed? }
      out.1

/-- The screen as a grid of characters. -/
def screen (t : Terminal ε) : TextScreen :=
  TextScreen.blank.typed t.cons.size.width.toNat t.cons.size.height.toNat t.printed

variable {font respond} {t u : Terminal ε} {ch : BitVec 8} {out : List (BitVec 8)}

@[simp] theorem print_shell : (print font t out).shell = t.shell := rfl

@[simp] theorem print_size : (print font t out).cons.size = t.cons.size := putChars_size

theorem screen_print : (print font t out).screen =
    t.screen.typed t.cons.size.width.toNat t.cons.size.height.toNat out := by
  rw [screen, print_size, print, TextScreen.typed, List.foldl_append]
  rfl

/-! ### One character -/

theorem print_nil : print font t [] = t := by
  rw [print, DebugConsole.putChars, List.append_nil, List.append_nil]

/-- A character the shell ignores leaves the terminal as it is. -/
theorem putChar_ignored (h : t.shell.putChar ch = ([], t.shell)) :
    t.putChar font respond ch = some t := by
  rw [putChar, h]
  change some (print font { t with executed := t.executed ++ [] } []) = some t
  rw [List.append_nil, print_nil]

/-- A character the shell echoes goes to the console. -/
theorem putChar_echoed {shell : DebugShell} (h : t.shell.putChar ch = ([.putChar ch], shell)) :
    t.putChar font respond ch = some (print font { t with shell } [ch]) := by
  rw [putChar, h]
  change some (print font { t with shell, executed := t.executed ++ [] } [ch]) = _
  rw [List.append_nil]

/-- A newline runs the line and ends with the next prompt. -/
theorem putChar_newline (hcur : t.shell.cur < kLineLength)
    (hprompt : t.shell.promptStr = kDefaultPrompt) :
    let buf := t.shell.buf.set t.shell.cur Ascii.nul
    t.putChar font respond Ascii.newline = (respond buf t.env).map fun out =>
      print font
        { t with
          shell := { t.shell with cur := 0, buf := buf }
          env := out.2
          executed := t.executed ++ [buf] }
        (Ascii.newline :: out.1 ++ kDefaultPrompt) := by
  intro buf
  have htext : t.shell.promptStr.takeWhile (· != Ascii.nul) = kDefaultPrompt := by
    rw [hprompt]
    rfl
  rw [putChar, DebugShell.putChar_newline hcur]
  change Option.map _ (emitAll respond
    [.putChar Ascii.newline, .exec buf, .putStr t.shell.promptStr] t.env) = _
  rw [emitAll_newline, htext]
  cases respond buf t.env <;> rfl

/-- What every command keeps is kept from character to character. -/
theorem putChar_keeps {P : ε → Prop}
    (hrespond : ∀ buf env out, respond buf env = some out → P env → P out.2)
    (s : Terminal ε) (ch : BitVec 8) (t : Terminal ε) (henv : P s.env)
    (hstep : s.putChar font respond ch = some t) : P t.env := by
  obtain ⟨out, hemit, rfl⟩ := Option.map_eq_some_iff.mp hstep
  exact emitAll_keeps respond hrespond hemit henv

/-! ### What holds of every terminal -/

/-- The console has printed what is recorded, and the cursor is shown. -/
structure Sound (font : Font) (size : RectSize) (t : Terminal ε) : Prop where
  console : (construct size).putChars font t.printed = (t.drawn, t.cons)
  last : ∃ ch, t.printed.getLast? = some ch ∧ ch ≠ Ascii.newline
  cur_le : t.shell.cur ≤ kLineLength
  prompt : t.shell.promptStr = kDefaultPrompt

end Terminal

/-- What a character other than a newline does to a line: it is ignored, or it is echoed and
erases or adds a character. -/
theorem DebugShell.putChar_editing {shell : DebugShell} {ch : BitVec 8}
    (hcur : shell.cur ≤ kLineLength) (hn : ch ≠ Ascii.newline) :
    shell.putChar ch = ([], shell) ∨ ∃ next : DebugShell, shell.putChar ch = ([.putChar ch], next) ∧
      next.cur ≤ kLineLength ∧ next.promptStr = shell.promptStr ∧
      (ch = Ascii.backspace ∧ shell.line ≠ [] ∧ next.line = shell.line.dropLast ∨
        ch ≠ Ascii.backspace ∧ next.line = shell.line ++ [ch]) := by
  rcases hcur.lt_or_eq with hlt | hfull
  · have hline := @DebugShell.line_putChar _ ch hlt
    have hlength := DebugShell.length_line hcur
    by_cases hb : ch = Ascii.backspace
    · subst hb
      by_cases hempty : shell.cur = 0
      · exact .inl (DebugShell.putChar_backspace_empty hempty)
      · rw [DebugShell.putChar_backspace hlt hempty] at hline ⊢
        refine .inr ⟨_, rfl, (Nat.sub_le ..).trans hcur, rfl, .inl ⟨rfl, ?_, hline⟩⟩
        intro hnil
        rw [hnil] at hlength
        exact hempty hlength.symm
    · rw [DebugShell.putChar_ordinary hlt hn hb] at hline ⊢
      refine .inr ⟨_, rfl, hlt, rfl, .inr ⟨hb, ?_⟩⟩
      rw [hline, DebugShell.editText_ordinary hn hb (hlength.trans_lt hlt)]
  · exact .inl (DebugShell.putChar_full hfull.ge)

theorem DebugShell.cur_putChar_le_succ {shell : DebugShell} {ch : BitVec 8}
    (hcur : shell.cur ≤ kLineLength) : (shell.putChar ch).2.cur ≤ shell.cur + 1 := by
  rcases hcur.lt_or_eq with hlt | hfull
  · rcases char_cases ch with rfl | rfl | ⟨hn, hb⟩
    · rw [DebugShell.putChar_newline hlt]
      exact Nat.zero_le _
    · by_cases hempty : shell.cur = 0
      · rw [DebugShell.putChar_backspace_empty hempty]
        exact Nat.le_succ _
      · rw [DebugShell.putChar_backspace hlt hempty]
        exact (Nat.sub_le ..).trans (Nat.le_succ _)
    · rw [DebugShell.putChar_ordinary hlt hn hb]
  · rw [DebugShell.putChar_full hfull.ge]
    exact Nat.le_succ _

namespace Terminal

variable {ε : Type*} {font : Font} {respond : Executor ε} {size : RectSize} {t u : Terminal ε}
  {ch : BitVec 8} {out : List (BitVec 8)}

namespace Sound

theorem size_eq (h : t.Sound font size) : t.cons.size = size := by
  have hsize : ((construct size).putChars font t.printed).2.size = size := putChars_size
  rwa [h.console] at hsize

theorem console_print (h : t.Sound font size) : (construct size).putChars font (t.printed ++ out) =
    (t.drawn ++ (t.cons.putChars font out).1, (t.cons.putChars font out).2) := by
  rw [putChars_append, h.console]

theorem boot (size : RectSize) (garbage : Vector (BitVec 8) kLineLength) (env : ε) :
    (Terminal.boot font size garbage env).Sound font size where
  console := rfl
  last := ⟨Ascii.space, rfl, by decide⟩
  cur_le := Nat.zero_le _
  prompt := rfl

/-- Every character keeps the terminal sound. -/
theorem putChar (h : t.Sound font size) (hstep : t.putChar font respond ch = some u) :
    u.Sound font size := by
  by_cases hn : ch = Ascii.newline
  · subst hn
    rcases h.cur_le.lt_or_eq with hcur | hfull
    -- a newline prints the answer and the prompt, which ends with a space
    · rw [putChar_newline hcur h.prompt] at hstep
      obtain ⟨out, -, rfl⟩ := Option.map_eq_some_iff.mp hstep
      refine ⟨h.console_print, ⟨Ascii.space, ?_, by decide⟩, Nat.zero_le _, h.prompt⟩
      have hsplit : t.printed ++ (Ascii.newline :: out.1 ++ kDefaultPrompt) =
          t.printed ++ (Ascii.newline :: out.1) ++ [0x24] ++ [Ascii.space] := by
        simp [kDefaultPrompt]
      exact (congrArg List.getLast? hsplit).trans List.getLast?_concat
    · rw [putChar_ignored (DebugShell.putChar_full hfull.ge)] at hstep
      exact Option.some.inj hstep ▸ h
  · rcases DebugShell.putChar_editing h.cur_le hn with hignored | ⟨shell, hecho, hcur, hprompt, -⟩
    · rw [putChar_ignored hignored] at hstep
      exact Option.some.inj hstep ▸ h
    · rw [putChar_echoed hecho] at hstep
      obtain rfl := Option.some.inj hstep
      exact ⟨h.console_print, ⟨ch, List.getLast?_concat, hn⟩, hcur, hprompt.trans h.prompt⟩

theorem step (s : Terminal ε) (ch : BitVec 8) (t : Terminal ε) (h : s.Sound font size)
    (hstep : s.putChar font respond ch = some t) : t.Sound font size :=
  h.putChar hstep

variable {mode : GraphicMode}

/-- The screen is where the console has its cursor. -/
theorem cursor_screen (hfits : Fits size mode) (h : t.Sound font size) :
    t.screen.cursor = t.cons.cell := by
  have hshown := (Shows.putChars rfl hfits hfits.construct_valid
    (s := TextScreen.blank) rfl (hfits.shows_clear font fun _ => white) t.printed).1
  rw [h.console] at hshown
  rw [screen, h.size_eq]
  exact hshown

theorem valid (hfits : Fits size mode) (h : t.Sound font size) : t.cons.Valid := by
  have hvalid := hfits.construct_valid.putChars font t.printed
  rwa [h.console] at hvalid

/-- The frame buffer shows the screen. -/
theorem shows (hfits : Fits size mode) (h : t.Sound font size) (image : Image) :
    Shows font size (paint image (clearScreen mode ++ t.drawn)) t.screen.grid := by
  have hshown := (Shows.putChars rfl hfits hfits.construct_valid
    (s := TextScreen.blank) rfl (hfits.shows_clear font image) t.printed).2
  rw [h.console, ← paint_append] at hshown
  rw [screen, h.size_eq]
  exact hshown

/-- The cursor is shown at all times. -/
theorem caret_shown (h : t.Sound font size) :
    t.screen.grid t.screen.cursor = some Ascii.underscore := by
  obtain ⟨ch, hlast, hn⟩ := h.last
  obtain ⟨chars, hchars⟩ := List.getLast?_eq_some_iff.mp hlast
  rw [screen, hchars, TextScreen.typed, List.foldl_append]
  exact TextScreen.type_grid_cursor hn

/-- A shown line stays shown when a character edits it. -/
theorem showsLine_putChar (h : t.Sound font size) {base : ℕ}
    {old : TextCursor.Cell → Option (BitVec 8)} (hn : ch ≠ Ascii.newline)
    (hshown : TextScreen.ShowsLine size.width.toNat size.height.toNat base old t.shell.line t.screen) :
    ∃ u, t.putChar font respond ch = some u ∧ u.executed = t.executed ∧
      (base + u.shell.line.length < size.width.toNat * size.height.toNat →
        TextScreen.ShowsLine size.width.toNat size.height.toNat base old u.shell.line u.screen) := by
  rcases DebugShell.putChar_editing h.cur_le hn with hignored | ⟨shell, hecho, -, -, hline⟩
  · exact ⟨t, putChar_ignored hignored, rfl, fun _ => hshown⟩
  · refine ⟨_, putChar_echoed hecho, rfl, fun hroom => ?_⟩
    have hscreen := @screen_print _ font { t with shell } [ch]
    rw [print_shell] at hroom ⊢
    rw [hscreen, h.size_eq]
    rcases hline with ⟨rfl, hne, hline⟩ | ⟨hb, hline⟩
    · rw [hline]
      exact hshown.type_backspace hne
    · rw [hline, List.length_append, List.length_singleton, ← Nat.add_assoc] at hroom
      rw [hline]
      exact hshown.type_printed hn hb hroom

/-- A shown line stays shown as long as it has room. -/
theorem showsLine_run (h : t.Sound font size) {base : ℕ} {old : TextCursor.Cell → Option (BitVec 8)}
    (hshown : TextScreen.ShowsLine size.width.toNat size.height.toNat base old t.shell.line t.screen)
    {typed : List (BitVec 8)} (hplain : Ascii.newline ∉ typed)
    (hroom : Along (Terminal.putChar font respond)
      (fun u => base + u.shell.line.length < size.width.toNat * size.height.toNat) t typed) :
    ∃ u, run (Terminal.putChar font respond) t typed = some u ∧ u.Sound font size ∧
      u.executed = t.executed ∧
      TextScreen.ShowsLine size.width.toNat size.height.toNat base old u.shell.line u.screen := by
  induction typed generalizing t with
  | nil => exact ⟨t, rfl, h, rfl, hshown⟩
  | cons ch typed ih =>
    obtain ⟨hn, hplain⟩ := List.ne_and_not_mem_of_not_mem_cons hplain
    obtain ⟨u, hstep, hexecuted, hnext⟩ := h.showsLine_putChar hn.symm hshown
    have hlater := hroom.2 u hstep
    have hfits : base + u.shell.line.length < size.width.toNat * size.height.toNat := by
      cases typed with
      | nil => exact hlater
      | cons _ _ => exact hlater.1
    obtain ⟨v, hrun, hsound, hexecuted', hshown'⟩ :=
      ih (h.putChar hstep) (hnext hfits) hplain hlater
    exact ⟨v, (run_cons_of_step hstep).trans hrun, hsound, hexecuted'.trans hexecuted, hshown'⟩

end Sound

/-- **The screen shows the line.** Whatever was typed before and whatever the commands answered,
from an empty line on, and as long as the line stays clear of the last cell, the cells after the
prompt show exactly the line, with the cursor behind it and everything before it untouched; this is
what the pixels show. If the line is shorter than the buffer, a newline then has `Exec` run it up to
its first zero byte. -/
theorem screen_shows_line {mode : GraphicMode} (hfits : Fits size mode) (image₀ : Image)
    (garbage : Vector (BitVec 8) kLineLength) (env : ε) {before typed : List (BitVec 8)}
    (hbefore : run (putChar font respond) (boot font size garbage env) before = some t)
    (hempty : t.shell.line = []) (hplain : Ascii.newline ∉ typed)
    (hroom : Along (putChar font respond) (fun u =>
      TextCursor.index size.width.toNat t.cons.cell + u.shell.line.length <
        size.width.toNat * size.height.toNat) t typed) :
    ∃ u, run (putChar font respond) t typed = some u ∧
      TextScreen.ShowsLine size.width.toNat size.height.toNat
        (TextCursor.index size.width.toNat t.cons.cell) t.screen.grid u.shell.line u.screen ∧
      Shows font size (paint image₀ (clearScreen mode ++ u.drawn)) u.screen.grid ∧
      ∀ v, u.shell.line.length < kLineLength → u.putChar font respond Ascii.newline = some v →
        ∃ buf, v.executed = t.executed ++ [buf] ∧
          execLine buf = some (u.shell.line.takeWhile (· != Ascii.nul)) := by
  have hsound : t.Sound font size := invariant_run Sound.step (.boot size garbage env) hbefore
  have hcursor := hsound.cursor_screen hfits
  have hon := (hsound.valid hfits).onScreen
  rw [hsound.size_eq, ← hcursor] at hon
  rw [← hcursor] at hroom ⊢
  have hstart := TextScreen.ShowsLine.start hon hsound.caret_shown
  rw [← hempty] at hstart
  obtain ⟨u, hrun, husound, hexecuted, hshown⟩ := hsound.showsLine_run hstart hplain hroom
  refine ⟨u, hrun, hshown, husound.shows hfits image₀, ?_⟩
  intro v hfull hstep
  have hcur : u.shell.cur < kLineLength := (DebugShell.length_line husound.cur_le).symm ▸ hfull
  rw [putChar_newline hcur husound.prompt] at hstep
  obtain ⟨out, -, rfl⟩ := Option.map_eq_some_iff.mp hstep
  exact ⟨_, congrArg (· ++ [_]) hexecuted, DebugShell.execLine_set hcur⟩

/-- A text that ends before the last cell leaves room all along. -/
theorem Sound.along_of_length (h : t.Sound font size) {base cells : ℕ} {typed : List (BitVec 8)}
    (hroom : base + t.shell.line.length + typed.length < cells) :
    Along (Terminal.putChar font respond) (fun u => base + u.shell.line.length < cells) t typed := by
  induction typed generalizing t with
  | nil => exact hroom
  | cons ch typed ih =>
    rw [List.length_cons] at hroom
    refine ⟨by omega, fun u hstep => ih (h.putChar hstep) ?_⟩
    have hshell : u.shell = (t.shell.putChar ch).2 := by
      obtain ⟨out, -, rfl⟩ := Option.map_eq_some_iff.mp hstep
      rfl
    have hgrow := @DebugShell.cur_putChar_le_succ _ ch h.cur_le
    rw [← hshell, ← DebugShell.length_line (h.putChar hstep).cur_le,
      ← DebugShell.length_line h.cur_le] at hgrow
    omega

/-- Two characters after the first prompt, one of them erased. -/
theorem screen_shows_line_erased :
    let respond : Executor Unit := fun _ _ => none
    let t := boot (fun _ => 0) ⟨80, 25⟩ (Vector.replicate kLineLength 0) ()
    ∃ u, run (putChar (fun _ => 0) respond) t [0x68, 0x69, Ascii.backspace] = some u ∧
      u.screen.grid ⟨2, 0⟩ = some 0x68 ∧ u.screen.grid u.screen.cursor = some Ascii.underscore := by
  intro respond t
  have hfits : Fits ⟨80, 25⟩ ⟨0x80000000, 1024000, 640, 400, .blueGreenRedReserved8BitPerColor, 640⟩ :=
    ⟨by decide, by decide, by decide, by decide⟩
  obtain ⟨u, hrun, hshown, -⟩ := @screen_shows_line _ _ respond _ t _ hfits (fun _ => white)
    (Vector.replicate kLineLength 0) () [] _ rfl rfl (by decide)
    ((Sound.boot _ _ _).along_of_length (by decide : _ + _ + List.length [0x68, 0x69, Ascii.backspace] < _))
  have hline : (run (putChar (fun _ => 0) respond) t [0x68, 0x69, Ascii.backspace]).map
      (fun u => u.shell.line) = some [0x68] := by decide +kernel
  rw [hrun, Option.map_some, Option.some.injEq] at hline
  refine ⟨u, hrun, ?_, hshown.caret⟩
  exact hshown.text ⟨2, 0⟩ ⟨by decide, by decide⟩ 0 0x68 (by rw [hline]; rfl) (by decide)

end Terminal

end Bitnos
