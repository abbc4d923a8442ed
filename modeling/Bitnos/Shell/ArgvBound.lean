/-
# The room in `argv`

A line of the shell has up to 511 characters, which is room for 256 words, while `argv`
has room for 128 arguments. Which lines overrun it is read off the text typed.
-/

import Bitnos.Shell.Edit

namespace Bitnos

/-- The indices of `argv` that `Exec` stores to. Each store increments `argc`. -/
def Splitter.argvIndices (st : Splitter) : List ℕ := List.range st.argv.length

/-- `PutChar` makes `Exec` run on a line. -/
def Executes (shell : DebugShell) (typed line : List (BitVec 8)) : Prop :=
  ∃ buf, .exec buf ∈ (shell.putChars typed).1 ∧ execLine buf = some line

/-- What a character does to the line of the shell, which is left alone once it is full. -/
def keepText (text : List (BitVec 8)) (ch : BitVec 8) : List (BitVec 8) :=
  if text.length < kLineLength then editText text ch else text

/-- The line of a new shell after some characters. -/
def keptText (typed : List (BitVec 8)) : List (BitVec 8) := typed.foldl keepText []

/-- The number of arguments a line has for `Exec`, which counts one more when the line
ends with a space. -/
def argumentCount (line : List (BitVec 8)) : ℕ :=
  (commandWords line).length + if line.getLast? = some Ascii.space then 1 else 0

namespace DebugShell

variable {shell : DebugShell} {ch : BitVec 8} {typed line : List (BitVec 8)}
  {buf : Vector (BitVec 8) kLineLength}

theorem line_putChar_keep (hle : shell.cur ≤ kLineLength) :
    (shell.putChar ch).2.line = keepText shell.line ch := by
  rw [keepText, length_line hle]
  rcases hle.lt_or_eq with hlt | hfull
  · rw [if_pos hlt, line_putChar hlt]
  · rw [if_neg hfull.not_lt, putChar_full hfull.ge]

/-- One character runs `Exec` only if it is a newline and the line is not full. -/
theorem exec_mem_putChar : .exec buf ∈ (shell.putChar ch).1 ↔
    ch = Ascii.newline ∧ ∃ hlt : shell.cur < kLineLength, buf = shell.buf.set shell.cur Ascii.nul := by
  rcases Nat.lt_or_ge shell.cur kLineLength with hlt | hfull
  · rcases DebugConsole.char_cases ch with rfl | rfl | ⟨hn, hb⟩
    · rw [putChar_newline hlt]
      simp [hlt]
    · by_cases hempty : shell.cur = 0
      · rw [putChar_backspace_empty hempty]
        simp
      · rw [putChar_backspace hlt hempty]
        simp
    · rw [putChar_ordinary hlt hn hb]
      exact iff_of_false (by simp) fun h => hn h.1
  · rw [putChar_full hfull]
    simp [hfull.not_gt]

theorem executes_cons : Executes shell (ch :: typed) line ↔
    (∃ buf, .exec buf ∈ (shell.putChar ch).1 ∧ execLine buf = some line) ∨
      Executes (shell.putChar ch).2 typed line := by
  simp only [Executes, putChars, List.mem_append, or_and_right, exists_or]

theorem executes_first (hle : shell.cur ≤ kLineLength) :
    (∃ buf, .exec buf ∈ (shell.putChar ch).1 ∧ execLine buf = some line) ↔
      ch = Ascii.newline ∧ shell.line.length < kLineLength ∧
        line = shell.line.takeWhile (· != Ascii.nul) := by
  rw [length_line hle]
  constructor
  · rintro ⟨buf, hmem, hexec⟩
    obtain ⟨hch, hlt, rfl⟩ := exec_mem_putChar.mp hmem
    rw [execLine_set hlt, Option.some.injEq] at hexec
    exact ⟨hch, hlt, hexec.symm⟩
  · rintro ⟨hch, hlt, rfl⟩
    exact ⟨_, exec_mem_putChar.mpr ⟨hch, hlt, rfl⟩, execLine_set hlt⟩

/-- Which lines a run of characters executes. -/
theorem executes_iff (hle : shell.cur ≤ kLineLength) : Executes shell typed line ↔
    ∃ before after, typed = before ++ Ascii.newline :: after ∧
      (before.foldl keepText shell.line).length < kLineLength ∧
      line = (before.foldl keepText shell.line).takeWhile (· != Ascii.nul) := by
  induction typed generalizing shell with
  | nil =>
    refine iff_of_false ?_ ?_
    · rintro ⟨buf, hmem, -⟩
      exact List.not_mem_nil hmem
    · rintro ⟨before, after, htyped, -⟩
      simp at htyped
  | cons ch typed ih =>
    rw [executes_cons, executes_first hle, ih (cur_putChar_le hle), line_putChar_keep hle]
    constructor
    · rintro (⟨rfl, hlt, hline⟩ | ⟨before, after, rfl, hlt, hline⟩)
      · exact ⟨[], typed, rfl, hlt, hline⟩
      · exact ⟨ch :: before, after, rfl, hlt, hline⟩
    · rintro ⟨before, after, htyped, hlt, hline⟩
      cases before with
      | nil => exact .inl ⟨(List.cons.inj htyped).1, hlt, hline⟩
      | cons ch' before =>
        obtain ⟨rfl, rfl⟩ := List.cons.inj htyped
        exact .inr ⟨before, after, rfl, hlt, hline⟩

end DebugShell

open Splitter

theorem length_argsOf {line : List (BitVec 8)} (hline : line ≠ []) :
    (argsOf line).length = argumentCount line := by
  rw [argsOf_of_ne_nil hline, argumentCount, List.length_append]
  split_ifs <;> rfl

/-- The loops store as many arguments as the line has. -/
theorem length_argv {line : List (BitVec 8)} {st : Splitter} (hline : line ≠ [])
    (hsplit : split line = some st) : st.argv.length = argumentCount line := by
  obtain ⟨st', hsplit', -, -, -, hwords⟩ := split_spec line
  obtain rfl := Option.some.inj (hsplit'.symm.trans hsplit)
  rw [← length_argsOf hline, ← hwords, List.length_map]

/-- The stores to `argv` for a line stay inside the array when its arguments fit. -/
theorem argvIndices_lt_iff {line : List (BitVec 8)} (hline : line ≠ []) :
    (∀ st, split line = some st → ∀ k ∈ st.argvIndices, k < kMaxArgs) ↔
      argumentCount line ≤ kMaxArgs := by
  obtain ⟨st, hsplit, -⟩ := split_spec line
  rw [← length_argv hline hsplit]
  constructor
  · intro hbound
    by_contra hover
    exact lt_irrefl kMaxArgs (hbound st hsplit kMaxArgs (List.mem_range.mpr (Nat.lt_of_not_le hover)))
  · intro hle st' hst' k hk
    obtain rfl := Option.some.inj (hsplit.symm.trans hst')
    exact (List.mem_range.mp hk).trans_le hle

/-- **The bound of the argument vector.** Whatever is typed into a new shell, `Exec` stores
inside `argv` exactly when no line run has more than 128 arguments, the empty one after a
final space included. -/
theorem argv_in_bounds_iff (garbage : Vector (BitVec 8) kLineLength) (typed : List (BitVec 8)) :
    (∀ line, Executes (DebugShell.construct garbage).2 typed line → line ≠ [] →
        ∀ st, split line = some st → ∀ k ∈ st.argvIndices, k < kMaxArgs) ↔
      ∀ before after, typed = before ++ Ascii.newline :: after →
        (keptText before).length < kLineLength →
        argumentCount ((keptText before).takeWhile (· != Ascii.nul)) ≤ kMaxArgs := by
  have hle : (DebugShell.construct garbage).2.cur ≤ kLineLength := Nat.zero_le _
  have hlines : ∀ line, Executes (DebugShell.construct garbage).2 typed line ↔
      ∃ before after, typed = before ++ Ascii.newline :: after ∧
        (keptText before).length < kLineLength ∧
        line = (keptText before).takeWhile (· != Ascii.nul) :=
    fun line => DebugShell.executes_iff hle
  constructor
  · intro hbound before after htyped hlt
    by_cases hempty : (keptText before).takeWhile (· != Ascii.nul) = []
    · rw [hempty]
      exact Nat.zero_le _
    · have hrun := (hlines _).mpr ⟨before, after, htyped, hlt, rfl⟩
      exact (argvIndices_lt_iff hempty).mp (hbound _ hrun hempty)
  · intro hfits line hrun hline
    obtain ⟨before, after, htyped, hlt, rfl⟩ := (hlines line).mp hrun
    exact (argvIndices_lt_iff hline).mpr (hfits before after htyped hlt)

/-- 128 letters with a space after each are a line of 256 characters, which is run. -/
theorem executes_pairs :
    let typed := (List.replicate 128 [0x61, Ascii.space]).flatten
    let shell := (DebugShell.construct (Vector.replicate kLineLength 0)).2
    Executes shell (typed ++ [Ascii.newline]) typed ∧ argumentCount typed = 129 := by
  intro typed shell
  have hkept : keptText typed = typed := by decide +kernel
  have hplain : typed.takeWhile (· != Ascii.nul) = typed := by decide +kernel
  refine ⟨(DebugShell.executes_iff (Nat.zero_le _)).mpr ⟨typed, [], rfl, ?_, ?_⟩, by decide +kernel⟩
  · change (keptText typed).length < kLineLength
    rw [hkept]
    decide +kernel
  · change typed = (keptText typed).takeWhile _
    rw [hkept, hplain]

/-- They make one argument too many. -/
theorem argv_overrun :
    let typed := (List.replicate 128 [0x61, Ascii.space]).flatten
    let shell := (DebugShell.construct (Vector.replicate kLineLength 0)).2
    ∃ line, Executes shell (typed ++ [Ascii.newline]) line ∧ line ≠ [] ∧
      ∃ st, split line = some st ∧ 128 ∈ st.argvIndices := by
  intro typed shell
  obtain ⟨hrun, hcount⟩ := executes_pairs
  have hne : typed ≠ [] := List.ne_nil_of_length_pos (by decide +kernel)
  obtain ⟨st, hsplit, -⟩ := split_spec typed
  refine ⟨typed, hrun, hne, st, hsplit, List.mem_range.mpr ?_⟩
  rw [length_argv hne hsplit, hcount]
  decide

end Bitnos
