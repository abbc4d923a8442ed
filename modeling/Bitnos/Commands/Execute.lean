/-
# Running a command line

`Exec` splits the line, looks its first argument up and calls the command. A line with at
most 128 arguments prints what its command answers, between the echo of the line and the
next prompt. `Echo` prints its arguments with single spaces between them, so a line that
echoes what was echoed prints the same again.
-/

import Bitnos.Commands.Format
import Bitnos.Console.Erasing
import Bitnos.Shell.Submitted

namespace Bitnos

open Graphics DebugConsole PartialRun Splitter

/-- `Echo` -/
def echo (argv : List (List (BitVec 8))) : List (BitVec 8) :=
  (argv[1]?).getD [] ++ (argv.drop 2).flatMap (fun arg => Ascii.space :: arg) ++ [Ascii.newline]

/-- The message for an unknown command. -/
def unknownCommand (argv0 : List (BitVec 8)) : List (BitVec 8) :=
  ascii "no such command: " ++ argv0 ++ [Ascii.newline]

/-- What the commands other than `echo` do with their arguments. -/
abbrev Commands (ε : Type*) := Command → List (List (BitVec 8)) → ε → Option (List (BitVec 8) × ε)

section

variable {ε : Type*} (commands : Commands ε) (env : ε)

/-- A command called with its arguments. -/
def callCommand (argv : List (List (BitVec 8))) : Command → Option (List (BitVec 8) × ε)
  | .echo => some (echo argv, env)
  | cmd => commands cmd argv env

/-- What `Exec` prints in the end. -/
def ExecResult.answer : ExecResult → Option (List (BitVec 8) × ε)
  | .returned => some ([], env)
  | .call cmd argv => callCommand commands env argv cmd
  | .noSuchCommand argv0 => some (unknownCommand argv0, env)

/-- What these arguments make `Exec` print. -/
def answerTo (argv : List (List (BitVec 8))) : Option (List (BitVec 8) × ε) :=
  (lookup argv).bind (ExecResult.answer commands env)

end

/-- `Exec`, when its buffer `s` lies where `garbage` was. -/
def execute {ε : Type*} (commands : Commands ε) (garbage : ℕ → BitVec 8) : Executor ε :=
  fun buf env => (execLine buf).bind fun text =>
    (exec ((List.range (text.length + 1)).map garbage) text).bind (ExecResult.answer commands env)

/-! ### A line as it is typed -/

namespace Terminal

variable {ε : Type*} (font : Font) (respond : Executor ε) {t : Terminal ε} {text : List (BitVec 8)}

/-- Plain characters are echoed and added to the line. -/
theorem run_plain (hplain : ∀ ch ∈ text, Plain ch) (hroom : t.shell.cur + text.length ≤ kLineLength) :
    ∃ u, run (putChar font respond) t text = some u ∧ u.printed = t.printed ++ text ∧
      u.shell.line = t.shell.line ++ text ∧ u.shell.cur = t.shell.cur + text.length ∧
      u.shell.promptStr = t.shell.promptStr ∧ u.env = t.env := by
  induction text generalizing t with
  | nil => exact ⟨t, rfl, (List.append_nil _).symm, (List.append_nil _).symm, rfl, rfl, rfl⟩
  | cons ch text ih =>
    rw [List.length_cons] at hroom
    obtain ⟨-, hn, hb⟩ := hplain ch List.mem_cons_self
    have hcur : t.shell.cur < kLineLength := by omega
    have hshell := DebugShell.putChar_ordinary hcur hn hb
    have hline := @DebugShell.line_putChar _ ch hcur
    have hecho : t.shell.putChar ch = ([.putChar ch], (t.shell.putChar ch).2) := by rw [hshell]
    rw [DebugShell.editText_ordinary hn hb (by rwa [DebugShell.length_line hcur.le])] at hline
    have hcur' : (t.shell.putChar ch).2.cur = t.shell.cur + 1 := by rw [hshell]
    have hprompt' : (t.shell.putChar ch).2.promptStr = t.shell.promptStr := by rw [hshell]
    have hrest : ∀ c ∈ text, Plain c := fun c hc => hplain c (List.mem_cons_of_mem ch hc)
    -- the rest is typed into the terminal that has shown `ch`
    obtain ⟨u, hrun, hprinted, hlast, hend, hprompt, henv⟩ :=
      ih (t := print font { t with shell := (t.shell.putChar ch).2 } [ch]) hrest
        (by rw [print_shell, hcur']; omega)
    refine ⟨u, (run_cons_of_step (putChar_echoed hecho)).trans hrun, ?_, ?_, ?_,
      hprompt.trans hprompt', henv⟩
    · rw [hprinted]
      exact List.append_assoc ..
    · rw [hlast, print_shell, hline]
      exact List.append_assoc ..
    · rw [hend, List.length_cons, print_shell, hcur']
      omega

/-- A line of plain characters is shown and run, and then comes what the run answers, if it does. -/
theorem run_line_eq (hprompt : t.shell.promptStr = kDefaultPrompt) (hempty : t.shell.cur = 0)
    (hplain : ∀ ch ∈ text, Plain ch) (hlength : text.length < kLineLength) :
    ∃ (buf : Vector (BitVec 8) kLineLength) (answered : List (BitVec 8) × ε → Terminal ε),
      execLine buf = some text ∧
      run (putChar font respond) t (text ++ [Ascii.newline]) = (respond buf t.env).map answered ∧
      ∀ out, (answered out).printed = t.printed ++ text ++ Ascii.newline :: out.1 ++ kDefaultPrompt ∧
        (answered out).shell.line = [] ∧ (answered out).env = out.2 := by
  obtain ⟨u, hrun, hprinted, hline, hcur, hprompt', henv⟩ :=
    run_plain font respond hplain (by omega : t.shell.cur + text.length ≤ kLineLength)
  rw [hempty, Nat.zero_add] at hcur
  have hstart : t.shell.line = [] := by rw [DebugShell.line, hempty, List.take_zero]
  rw [hstart, List.nil_append] at hline
  -- what `Exec` reads is the text up to a zero byte, and it has none
  have hexec := DebugShell.execLine_set (hcur.trans_lt hlength)
  have hnul : Ascii.nul ∉ text := fun hmem => (hplain _ hmem).1 rfl
  rw [hline, takeWhile_nul_eq_iff.mpr hnul] at hexec
  refine ⟨_, fun out => print font
    ⟨{ u.shell with cur := 0, buf := u.shell.buf.set u.shell.cur Ascii.nul }, u.cons,
      out.2, u.printed,
      u.drawn, u.executed ++ [u.shell.buf.set u.shell.cur Ascii.nul]⟩
    (Ascii.newline :: out.1 ++ kDefaultPrompt), hexec, ?_, fun out => ⟨?_, rfl, rfl⟩⟩
  · rw [run_append, hrun, Option.bind_some, run_cons,
      putChar_newline (hcur.trans_lt hlength) (hprompt'.trans hprompt), henv]
    exact Option.bind_fun_some _
  · change u.printed ++ _ = _
    rw [hprinted, List.append_assoc, List.append_assoc, List.append_assoc]

end Terminal

/-! ### Arguments and their line -/

/-- The line that has these arguments. -/
def joined (args : List (List (BitVec 8))) : List (BitVec 8) := [Ascii.space].intercalate args

/-- Arguments as splitting leaves them: without spaces, and none but the last of them empty. -/
def Separable (args : List (List (BitVec 8))) : Prop :=
  (∀ arg ∈ args, Ascii.space ∉ arg) ∧ ∀ arg ∈ args.dropLast, arg ≠ []

section

variable {text arg : List (BitVec 8)} {args : List (List (BitVec 8))}

theorem separable_argsOf (text : List (BitVec 8)) : Separable (argsOf text) := by
  have hwords : ∀ word ∈ commandWords text, Ascii.space ∉ word ∧ word ≠ [] := by
    intro word hword
    refine ⟨fun hspace => ?_, Words.ne_nil_of_mem_words hword⟩
    exact absurd (Words.sep_eq_false_of_mem_words hword hspace) (by decide)
  rw [argsOf]
  split_ifs
  · refine ⟨?_, ?_⟩
    · simpa [or_imp, forall_and] using fun word hword => (hwords word hword).1
    · rw [List.dropLast_concat]
      exact fun word hword => (hwords word hword).2
  · rw [List.append_nil]
    exact ⟨fun word hword => (hwords word hword).1,
      fun word hword => (hwords word (List.mem_of_mem_dropLast hword)).2⟩

theorem Separable.tail (h : Separable (arg :: args)) : Separable args := by
  refine ⟨fun a ha => h.1 a (List.mem_cons_of_mem arg ha), fun a ha => h.2 a ?_⟩
  cases args with
  | nil => simp at ha
  | cons b args => exact List.mem_cons_of_mem arg ha

/-- Splitting a joined line gives the arguments back. -/
theorem argsOf_joined (hne : args ≠ []) (h : Separable args) : argsOf (joined args) = args := by
  induction args with
  | nil => exact absurd rfl hne
  | cons arg args ih =>
    have hspace : ∀ ch ∈ arg, (ch == Ascii.space) = false := by
      intro ch hch
      rw [beq_eq_false_iff_ne]
      rintro rfl
      exact h.1 arg List.mem_cons_self hch
    cases args with
    | nil =>
      rw [joined, List.intercalate_singleton]
      by_cases harg : arg = []
      · subst harg
        rfl
      · exact argsOf_word hspace harg
    | cons next args =>
      have harg : arg ≠ [] := h.2 arg List.mem_cons_self
      -- the first argument ends at the space that was put behind it
      have hrest := ih (List.cons_ne_nil next args) h.tail
      rw [joined, List.intercalate_cons_cons, List.append_assoc]
      exact (argsOf_word_space hspace harg _).trans (congrArg (arg :: ·) hrest)

theorem commandWords_joined (h : Separable args) :
    commandWords (joined args) = args.filter fun arg => !arg.isEmpty :=
  Words.words_intercalate h.1

/-- The arguments that are not empty are the words. -/
theorem filter_argsOf (text : List (BitVec 8)) :
    ((argsOf text).filter fun arg => !arg.isEmpty) = commandWords text := by
  have hwords : (commandWords text).filter (fun arg => !arg.isEmpty) = commandWords text :=
    List.filter_eq_self.mpr fun word hword => by simpa using Words.ne_nil_of_mem_words hword
  rw [argsOf, List.filter_append, hwords]
  split_ifs <;> exact List.append_nil _

/-- Joining is stable, also for no arguments at all. -/
theorem joined_argsOf_joined (h : Separable args) : joined (argsOf (joined args)) = joined args := by
  by_cases hne : args = []
  · subst hne
    rfl
  · rw [argsOf_joined hne h]

/-- `Echo` prints the line of what follows its name. -/
theorem echo_eq (argv0 : List (BitVec 8)) (args : List (List (BitVec 8))) :
    echo (argv0 :: args) = joined args ++ [Ascii.newline] := by
  cases args with
  | nil => rfl
  | cons arg args =>
    refine congrArg (· ++ [Ascii.newline]) ?_
    change arg ++ args.flatMap _ = _
    induction args generalizing arg with
    | nil => exact (List.append_nil arg).trans List.intercalate_singleton.symm
    | cons next args ih =>
      rw [List.flatMap_cons, joined, List.intercalate_cons_cons, List.append_assoc]
      exact congrArg (arg ++ Ascii.space :: ·) (ih next)

end

/-! ### What `Exec` answers -/

section

variable {ε : Type*} {commands : Commands ε} {garbage : ℕ → BitVec 8} {env : ε}
  {text : List (BitVec 8)}

/-- A line without too many arguments is answered by the command its arguments name. -/
theorem execute_eq {buf : Vector (BitVec 8) kLineLength} (hline : execLine buf = some text)
    (hne : text ≠ []) (hnul : Ascii.nul ∉ text) (hcount : (argsOf text).length ≤ kMaxArgs) :
    execute commands garbage buf env = answerTo commands env (argsOf text) := by
  have hgarbage : ((List.range (text.length + 1)).map garbage).length = text.length + 1 := by simp
  rw [execute, hline, Option.bind_some, exec, if_neg (by simpa using hne),
    execArgs_eq hgarbage hnul, if_pos hcount]
  rfl

/-- What the other commands keep is kept by `Exec`. -/
theorem execute_keeps {P : ε → Prop}
    (hcommands : ∀ cmd argv env out, commands cmd argv env = some out → P env → P out.2)
    (buf : Vector (BitVec 8) kLineLength) (env : ε) (out : List (BitVec 8) × ε)
    (hexecute : execute commands garbage buf env = some out) (henv : P env) : P out.2 := by
  obtain ⟨text, -, hexec⟩ := Option.bind_eq_some_iff.mp hexecute
  obtain ⟨result, -, hanswer⟩ := Option.bind_eq_some_iff.mp hexec
  cases result with
  | call cmd argv =>
    cases cmd with
    | echo =>
      obtain rfl := Option.some.inj hanswer
      exact henv
    | lspci | mmap | xhci => exact hcommands _ argv env out hanswer henv
  | returned | noSuchCommand =>
    obtain rfl := Option.some.inj hanswer
    exact henv

theorem answerTo_echo (commands : Commands ε) (env : ε) (args : List (List (BitVec 8))) :
    answerTo commands env (Command.echo.name :: args) =
      some (joined args ++ [Ascii.newline], env) := by
  rw [← echo_eq Command.echo.name]
  rfl

end

/-! ### A command as it is typed -/

/-- A line that fits the empty line buffer, with no more arguments than `Exec` takes. -/
structure Typable (text : List (BitVec 8)) : Prop where
  plain : ∀ ch ∈ text, Plain ch
  length_lt : text.length < kLineLength
  ne_nil : text ≠ []
  argc_le : (argsOf text).length ≤ kMaxArgs

theorem Command.typable_name (cmd : Command) : Typable cmd.name := by
  cases cmd <;> exact ⟨by decide, by decide, by decide, by decide⟩

theorem Command.argsOf_name (cmd : Command) : argsOf cmd.name = [cmd.name] := by
  cases cmd <;> decide

namespace Terminal

variable {ε : Type*} {commands : Commands ε} (garbage : ℕ → BitVec 8) (font : Font) {t : Terminal ε}
  {text : List (BitVec 8)} {out : List (BitVec 8) × ε}

/-- The line is shown, and then comes what the command answers, if it does. -/
theorem run_typed_eq (hprompt : t.shell.promptStr = kDefaultPrompt) (hempty : t.shell.cur = 0)
    (htext : Typable text) :
    ∃ answered : List (BitVec 8) × ε → Terminal ε,
      run (putChar font (execute commands garbage)) t (text ++ [Ascii.newline]) =
        (answerTo commands t.env (argsOf text)).map answered ∧
      ∀ out, (answered out).printed = t.printed ++ text ++ Ascii.newline :: out.1 ++ kDefaultPrompt ∧
        (answered out).shell.line = [] ∧ (answered out).env = out.2 := by
  obtain ⟨buf, answered, hbuf, hrun, hanswered⟩ :=
    run_line_eq font (execute commands garbage) hprompt hempty htext.plain htext.length_lt
  have hnul : Ascii.nul ∉ text := fun hmem => (htext.plain _ hmem).1 rfl
  rw [execute_eq hbuf htext.ne_nil hnul htext.argc_le] at hrun
  exact ⟨answered, hrun, hanswered⟩

/-- The line is shown, run and answered. -/
theorem run_typed (hprompt : t.shell.promptStr = kDefaultPrompt) (hempty : t.shell.cur = 0)
    (htext : Typable text) (hanswer : answerTo commands t.env (argsOf text) = some out) :
    ∃ u, run (putChar font (execute commands garbage)) t (text ++ [Ascii.newline]) = some u ∧
      u.printed = t.printed ++ text ++ Ascii.newline :: out.1 ++ kDefaultPrompt ∧
      u.shell.line = [] ∧ u.env = out.2 := by
  obtain ⟨answered, hrun, hanswered⟩ := run_typed_eq garbage font hprompt hempty htext
  rw [hanswer, Option.map_some] at hrun
  exact ⟨answered out, hrun, hanswered out⟩

/-- A command typed without arguments. -/
theorem run_name (hprompt : t.shell.promptStr = kDefaultPrompt) (hempty : t.shell.cur = 0)
    {cmd : Command} (hanswer : answerTo commands t.env [cmd.name] = some out) :
    ∃ u, run (putChar font (execute commands garbage)) t (cmd.name ++ [Ascii.newline]) = some u ∧
      u.printed = t.printed ++ cmd.name ++ Ascii.newline :: out.1 ++ kDefaultPrompt ∧
      u.shell.line = [] ∧ u.env = out.2 := by
  rw [← cmd.argsOf_name] at hanswer
  exact run_typed garbage font hprompt hempty cmd.typable_name hanswer

/-- Where it has ended, the answer has been printed. -/
theorem answer_of_run_name (hprompt : t.shell.promptStr = kDefaultPrompt) (hempty : t.shell.cur = 0)
    (cmd : Command) {u : Terminal ε}
    (hu : run (putChar font (execute commands garbage)) t (cmd.name ++ [Ascii.newline]) = some u) :
    ∃ out, answerTo commands t.env [cmd.name] = some out ∧
      u.printed = t.printed ++ cmd.name ++ Ascii.newline :: out.1 ++ kDefaultPrompt ∧
      u.shell.line = [] ∧ u.env = out.2 := by
  obtain ⟨answered, hrun, hanswered⟩ := run_typed_eq garbage font hprompt hempty cmd.typable_name
  rw [hrun, cmd.argsOf_name] at hu
  obtain ⟨out, hout, rfl⟩ := Option.map_eq_some_iff.mp hu
  exact ⟨out, hout, hanswered out⟩

/-- So it ends exactly when it answers. -/
theorem exists_run_name_iff (hprompt : t.shell.promptStr = kDefaultPrompt) (hempty : t.shell.cur = 0)
    (cmd : Command) :
    (∃ u, run (putChar font (execute commands garbage)) t (cmd.name ++ [Ascii.newline]) = some u) ↔
      ∃ out, answerTo commands t.env [cmd.name] = some out := by
  constructor
  · rintro ⟨u, hrun⟩
    obtain ⟨out, hanswer, -⟩ := answer_of_run_name garbage font hprompt hempty cmd hrun
    exact ⟨out, hanswer⟩
  · rintro ⟨out, hanswer⟩
    obtain ⟨u, hrun, -⟩ := run_name garbage font hprompt hempty hanswer
    exact ⟨u, hrun⟩

end Terminal

/-- **Echo is a fixed point of itself.** From an empty line, wherever on the screen, a line of plain
characters whose first argument is `echo` prints its other arguments between the echo of what was
typed and the next prompt, with the same words in the same order, and leaves everything else alone;
typed after `echo` once more, what was printed prints the same again. -/
theorem Terminal.typed_echo {ε : Type*} {commands : Commands ε} {garbage : ℕ → BitVec 8} {font : Font}
    {size : RectSize} {t : Terminal ε} {text : List (BitVec 8)} (hsound : t.Sound font size)
    (hempty : t.shell.cur = 0) (hplain : ∀ ch ∈ text, Plain ch) (hlength : text.length < kLineLength)
    (hcount : (argsOf text).length ≤ kMaxArgs)
    (hecho : (commandWords text).head? = some (ascii "echo")) :
    ∃ u out, run (Terminal.putChar font (execute commands garbage)) t (text ++ [Ascii.newline]) =
      some u ∧
      u.printed = t.printed ++ text ++ Ascii.newline :: (out ++ [Ascii.newline]) ++ kDefaultPrompt ∧
      u.shell.line = [] ∧ u.env = t.env ∧ commandWords out = (commandWords text).tail ∧
      answerTo commands t.env (argsOf (ascii "echo" ++ Ascii.space :: out)) =
        some (out ++ [Ascii.newline], t.env) := by
  obtain ⟨words, hwords⟩ : ∃ words, commandWords text = ascii "echo" :: words := by
    obtain ⟨words, hwords⟩ := List.head?_eq_some_iff.mp hecho
    exact ⟨words, hwords⟩
  -- the first word is the first argument, also when there are spaces before it
  obtain ⟨args, hargs⟩ : ∃ args, argsOf text = Command.echo.name :: args := by
    rw [argsOf, hwords]
    exact ⟨_, rfl⟩
  have hsep : Separable args := (hargs ▸ separable_argsOf text).tail
  have hne : text ≠ [] := by
    rintro rfl
    exact List.cons_ne_nil _ _ hwords.symm
  have hanswer : answerTo commands t.env (argsOf text) = some (joined args ++ [Ascii.newline], t.env) := by
    rw [hargs]
    exact answerTo_echo commands t.env args
  obtain ⟨u, hrun, hprinted, hline, henv⟩ := Terminal.run_typed garbage font hsound.prompt hempty
    ⟨hplain, hlength, hne, hcount⟩ hanswer
  refine ⟨u, joined args, hrun, hprinted, hline, henv, ?_, ?_⟩
  · rw [commandWords_joined hsep, ← filter_argsOf text, hargs]
    rfl
  · have hname : ∀ ch ∈ ascii "echo", (ch == Ascii.space) = false := by decide
    -- joining and splitting once more changes nothing
    have hagain := answerTo_echo commands t.env (argsOf (joined args))
    rw [joined_argsOf_joined hsep] at hagain
    rw [argsOf_word_space hname (by decide)]
    exact hagain

/-- `echo`, two spaces, `a` and one more space. -/
theorem Terminal.typed_echo_spaces :
    let respond := execute (fun _ _ (_ : Unit) => none) fun _ => 0
    let t := boot (fun _ => 0) ⟨80, 25⟩ (Vector.replicate kLineLength 0) ()
    ∃ u out, run (Terminal.putChar (fun _ => 0) respond) t (ascii "echo  a " ++ [Ascii.newline]) =
      some u ∧
      u.printed = t.printed ++ ascii "echo  a " ++ Ascii.newline :: (out ++ [Ascii.newline]) ++
        kDefaultPrompt ∧ commandWords out = [ascii "a"] := by
  intro respond t
  have hsound : t.Sound (fun _ => 0) ⟨80, 25⟩ := Sound.boot _ _ _
  obtain ⟨u, out, hrun, hprinted, -, -, hwords, -⟩ := @Terminal.typed_echo _
    (fun _ _ (_ : Unit) => none) (fun _ => 0) _ _ _ (ascii "echo  a ") hsound rfl (by decide)
    (by decide) (by decide) (by decide)
  exact ⟨u, out, hrun, hprinted, hwords⟩

end Bitnos
