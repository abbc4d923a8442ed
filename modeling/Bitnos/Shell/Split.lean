/-
# How the shell splits a command line

`DebugShell::Exec` copies the line into a buffer of its own, with a zero byte for each
space and at the end, and collects in `argv` where the arguments start. The loops share
one index. The outer one ends only once the index has passed the end of the line, so a
line that ends with a space gets one more argument, which is empty.
-/

import Bitnos.Console.Debug
import Bitnos.Math.Words

namespace Bitnos

/-- The local variables of the splitting loops. -/
structure Splitter where
  i : ℕ
  /-- the bytes stored to `s`, each with its index, oldest first -/
  stores : List (ℕ × BitVec 8)
  /-- the offsets into `s` stored to `argv`, so `argc` is their number -/
  argv : List ℕ

namespace Splitter

/-- `s[i++] = byte` -/
def store (st : Splitter) (byte : BitVec 8) : Splitter :=
  { st with i := st.i + 1, stores := st.stores ++ [(st.i, byte)] }

/-- An inner loop: store a byte for each character as long as they satisfy `p`. The number
is `len - i`, what the test `i < len` still allows. -/
def scan (p : BitVec 8 → Bool) (f : BitVec 8 → BitVec 8) (text : List (BitVec 8)) :
    ℕ → Splitter → Splitter
  | 0, st => st
  | n + 1, st =>
    match text[st.i]? with
    | some ch => if p ch then scan p f text n (st.store (f ch)) else st
    | none => st

/-- The loop over spaces. -/
def skipSpaces (text : List (BitVec 8)) (st : Splitter) : Splitter :=
  scan (· == Ascii.space) (fun _ => Ascii.nul) text (text.length - st.i) st

/-- The loop over the characters of an argument. -/
def copyWord (text : List (BitVec 8)) (st : Splitter) : Splitter :=
  scan (· != Ascii.space) (fun ch => ch) text (text.length - st.i) st

/-- The outer loop, with a bound on its iterations. -/
def splitLoop (text : List (BitVec 8)) : ℕ → Splitter → Option Splitter
  | 0, _ => none
  | fuel + 1, st =>
    let st := skipSpaces text st
    if st.i > text.length then
      some st
    else
      let st := copyWord text { st with argv := st.argv ++ [st.i] }
      splitLoop text fuel (st.store Ascii.nul)

end Splitter

open Splitter

/-- The splitting part of `Exec`. -/
def split (text : List (BitVec 8)) : Option Splitter :=
  splitLoop text (text.length + 2) ⟨0, [], []⟩

/-- The string at an offset of a buffer. -/
def stringAt (s : List (BitVec 8)) (offset : ℕ) : List (BitVec 8) :=
  (s.drop offset).takeWhile (· != Ascii.nul)

/-- The size of the array `argv`. -/
def kMaxArgs : ℕ := 128

/-- The arguments `Exec` passes on, when `s` lies where `garbage` was. A store outside
`argv` is undefined. -/
def execArgs (garbage text : List (BitVec 8)) : Option (List (List (BitVec 8))) :=
  (split text).bind fun st =>
    if st.argv.length ≤ kMaxArgs then
      some (st.argv.map (stringAt (st.stores.foldl (fun s entry => s.set entry.1 entry.2) garbage)))
    else
      none

/-- The commands of `command::table`. -/
inductive Command
  | echo
  | lspci
  | mmap
  | xhci
  deriving DecidableEq

/-- The name of a command. -/
def Command.name : Command → List (BitVec 8)
  | .echo => [0x65, 0x63, 0x68, 0x6f]
  | .lspci => [0x6c, 0x73, 0x70, 0x63, 0x69]
  | .mmap => [0x6d, 0x6d, 0x61, 0x70]
  | .xhci => [0x78, 0x68, 0x63, 0x69]

/-- `command::table` -/
def commandTable : List Command := [.echo, .lspci, .mmap, .xhci]

/-- What `Exec` does with a line. -/
inductive ExecResult
  | returned
  | call (cmd : Command) (argv : List (List (BitVec 8)))
  | noSuchCommand (argv0 : List (BitVec 8))

/-- The lookup at the end of `Exec`. Without arguments it reads an unset pointer. -/
def lookup : List (List (BitVec 8)) → Option ExecResult
  | [] => none
  | argv0 :: args =>
    match commandTable.find? (·.name == argv0) with
    | some cmd => some (.call cmd (argv0 :: args))
    | none => some (.noSuchCommand argv0)

/-- `Exec` on the string in `buf_`. -/
def exec (garbage text : List (BitVec 8)) : Option ExecResult :=
  if text.length = 0 then some .returned else (execArgs garbage text).bind lookup

/-- The words of a command line, the maximal runs of characters other than spaces. -/
def commandWords (text : List (BitVec 8)) : List (List (BitVec 8)) :=
  Words.words (· == Ascii.space) text

/-! ### What the loops store -/

/-- What ends up in `s` for a character of the line. -/
def separated (ch : BitVec 8) : BitVec 8 := if ch = Ascii.space then Ascii.nul else ch

/-- What ends up in `s` at an index. -/
def cellAt (text : List (BitVec 8)) (k : ℕ) : BitVec 8 :=
  ((text.map separated)[k]?).getD Ascii.nul

namespace Splitter

variable {text : List (BitVec 8)} {st : Splitter} {p : BitVec 8 → Bool} {f : BitVec 8 → BitVec 8}

@[simp] theorem store_i (byte : BitVec 8) : (st.store byte).i = st.i + 1 := rfl

@[simp] theorem store_argv (byte : BitVec 8) : (st.store byte).argv = st.argv := rfl

/-- Every index below `i` has been stored to once, in order, with the right byte. -/
def Filled (text : List (BitVec 8)) (st : Splitter) : Prop :=
  st.stores = (List.range st.i).map fun k => (k, cellAt text k)

theorem Filled.store (h : st.Filled text) {byte : BitVec 8} (hbyte : byte = cellAt text st.i) :
    (st.store byte).Filled text := by
  rw [Filled, Splitter.store, List.range_succ, List.map_append, ← h, hbyte]
  rfl

theorem cellAt_of_lt {k : ℕ} {ch : BitVec 8} (hch : text[k]? = some ch) :
    cellAt text k = separated ch := by
  rw [cellAt, List.getElem?_map, hch]
  rfl

theorem cellAt_length : cellAt text text.length = Ascii.nul := by
  rw [cellAt, List.getElem?_eq_none (by simp)]
  rfl

/-- An inner loop has passed the run of characters that satisfy `p`. -/
structure Passed (p : BitVec 8 → Bool) (text : List (BitVec 8)) (st st' : Splitter) : Prop where
  filled : st'.Filled text
  argv_eq : st'.argv = st.argv
  le : st.i ≤ st'.i
  le_length : st.i ≤ text.length → st'.i ≤ text.length
  drop_eq : text.drop st'.i = (text.drop st.i).dropWhile p

theorem scan_passed (hf : ∀ ch, p ch → f ch = separated ch) {n : ℕ} (hn : n = text.length - st.i)
    (h : st.Filled text) : Passed p text st (scan p f text n st) := by
  induction n generalizing st with
  | zero =>
    have hend : text.drop st.i = [] := List.drop_eq_nil_of_le (by omega)
    exact ⟨h, rfl, le_rfl, id, by rw [scan, hend]; rfl⟩
  | succ n ih =>
    have hlt : st.i < text.length := by omega
    have hch : text[st.i]? = some text[st.i] := List.getElem?_eq_getElem hlt
    rw [scan, hch]
    dsimp only
    split_ifs with hp
    · have hstore := h.store ((hf _ hp).trans (cellAt_of_lt hch).symm)
      have hrest := ih (by rw [store_i]; omega) hstore
      refine ⟨hrest.filled, hrest.argv_eq, (Nat.le_succ _).trans hrest.le,
        fun _ => hrest.le_length hlt, hrest.drop_eq.trans ?_⟩
      rw [List.drop_eq_getElem_cons hlt, List.dropWhile_cons_of_pos hp, store_i]
    · refine ⟨h, rfl, le_rfl, id, ?_⟩
      rw [List.drop_eq_getElem_cons hlt, List.dropWhile_cons_of_neg hp]

theorem skipSpaces_passed (h : st.Filled text) :
    Passed (· == Ascii.space) text st (skipSpaces text st) := by
  refine scan_passed ?_ rfl h
  intro ch hch
  rw [separated, if_pos (beq_iff_eq.mp hch)]

theorem copyWord_passed (h : st.Filled text) :
    Passed (· != Ascii.space) text st (copyWord text st) := by
  refine scan_passed ?_ rfl h
  intro ch hch
  rw [separated, if_neg (bne_iff_ne.mp hch)]

/-- The characters from an offset to the next space. -/
def wordAt (text : List (BitVec 8)) (offset : ℕ) : List (BitVec 8) :=
  (text.drop offset).takeWhile (· != Ascii.space)

/-- The arguments found in what is left of a line: its words, and an empty one if nothing
is left or it ends with a space. -/
def argsOf (rest : List (BitVec 8)) : List (List (BitVec 8)) :=
  commandWords rest ++ if rest.getLast?.all (· == Ascii.space) then [[]] else []

/-- What follows a space decides whether a line ends with one. -/
theorem getLast_all_append (before rest : List (BitVec 8)) :
    (before ++ Ascii.space :: rest).getLast?.all (· == Ascii.space) =
      rest.getLast?.all (· == Ascii.space) := by
  rw [List.getLast?_append_cons]
  cases rest with
  | nil => rfl
  | cons ch rest => rw [List.getLast?_cons_cons]

/-- A leading space adds no argument, not even if nothing else is left. -/
theorem argsOf_cons_space (rest : List (BitVec 8)) :
    argsOf (Ascii.space :: rest) = argsOf rest := by
  have hwords : commandWords (Ascii.space :: rest) = commandWords rest :=
    Words.words_cons_of_sep rfl
  rw [argsOf, argsOf, hwords, ← getLast_all_append [] rest, List.nil_append]

theorem argsOf_dropWhile (rest : List (BitVec 8)) :
    argsOf (rest.dropWhile (· == Ascii.space)) = argsOf rest := by
  induction rest with
  | nil => rfl
  | cons ch rest ih =>
    by_cases hch : ch = Ascii.space
    · rw [List.dropWhile_cons_of_pos (by simpa using hch), ih, hch, argsOf_cons_space]
    · rw [List.dropWhile_cons_of_neg (by simpa using hch)]

section

variable {word : List (BitVec 8)}

/-- A word that ends the line is its last argument. -/
theorem argsOf_word (hplain : ∀ ch ∈ word, (ch == Ascii.space) = false) (hne : word ≠ []) :
    argsOf word = [word] := by
  have hlast : ¬ word.getLast?.all (· == Ascii.space) := by
    rw [List.getLast?_eq_some_getLast hne, Option.all_some, hplain _ (List.getLast_mem hne)]
    exact Bool.false_ne_true
  rw [argsOf, if_neg hlast, List.append_nil, commandWords, Words.words_of_forall hplain hne]

/-- A word with a space after it is the next argument. -/
theorem argsOf_word_space (hplain : ∀ ch ∈ word, (ch == Ascii.space) = false) (hne : word ≠ [])
    (rest : List (BitVec 8)) : argsOf (word ++ Ascii.space :: rest) = word :: argsOf rest := by
  rw [argsOf, argsOf, getLast_all_append, commandWords, commandWords,
    Words.words_append_cons hplain hne rfl, List.cons_append]

end

/-- One round of the outer loop finds the next argument and leaves the rest of the line. -/
theorem argsOf_eq (rest : List (BitVec 8)) :
    let trimmed := rest.dropWhile (· == Ascii.space)
    argsOf rest = trimmed.takeWhile (· != Ascii.space) ::
      match trimmed.dropWhile (· != Ascii.space) with
      | [] => []
      | _ :: rest => argsOf rest := by
  intro trimmed
  have hstart := List.head?_dropWhile_not (· == Ascii.space) rest
  rw [← argsOf_dropWhile rest]
  change argsOf trimmed = _
  cases htrimmed : trimmed with
  | nil => rfl
  | cons ch tail =>
    rw [show rest.dropWhile (· == Ascii.space) = ch :: tail from htrimmed] at hstart
    have hch : ch ≠ Ascii.space := beq_eq_false_iff_ne.mp hstart
    have hword : (ch :: tail).takeWhile (· != Ascii.space) ≠ [] := by
      rw [List.takeWhile_cons_of_pos (by simpa using hch)]
      exact List.cons_ne_nil ch _
    have hplain : ∀ ch' ∈ (ch :: tail).takeWhile (· != Ascii.space), (ch' == Ascii.space) = false := by
      intro ch' hch'
      simpa using List.mem_takeWhile_imp hch'
    have hstop := List.head?_dropWhile_not (· != Ascii.space) (ch :: tail)
    have hsplit := @List.takeWhile_append_dropWhile _ (· != Ascii.space) (ch :: tail)
    cases hrest : (ch :: tail).dropWhile (· != Ascii.space) with
    | nil =>
      rw [hrest, List.append_nil] at hsplit
      conv_lhs => rw [← hsplit]
      exact argsOf_word hplain hword
    | cons space rest' =>
      rw [hrest] at hstop hsplit
      obtain rfl : space = Ascii.space := by simpa using hstop
      conv_lhs => rw [← hsplit]
      exact argsOf_word_space hplain hword rest'

/-! ### The outer loop -/

/-- One round of the outer loop. -/
def round (text : List (BitVec 8)) (st : Splitter) : Splitter :=
  let st := skipSpaces text st
  (copyWord text { st with argv := st.argv ++ [st.i] }).store Ascii.nul

theorem splitLoop_succ (fuel : ℕ) : splitLoop text (fuel + 1) st =
    if (skipSpaces text st).i > text.length then some (skipSpaces text st)
    else splitLoop text fuel (round text st) := rfl

/-- Past the end of the line the outer loop ends. -/
theorem splitLoop_done (hi : text.length < st.i) (fuel : ℕ) : splitLoop text (fuel + 1) st = some st := by
  have hskip : skipSpaces text st = st := by
    rw [skipSpaces, Nat.sub_eq_zero_of_le hi.le]
    rfl
  rw [splitLoop_succ, hskip, if_pos hi]

/-- Where an argument ends, a zero byte belongs. -/
theorem Passed.cellAt_eq {st' : Splitter} (h : Passed (· != Ascii.space) text st st')
    (hi : st'.i ≤ text.length) : Ascii.nul = cellAt text st'.i := by
  rcases hi.lt_or_eq with hlt | hend
  · have hstop := List.head?_dropWhile_not (· != Ascii.space) (text.drop st.i)
    rw [← h.drop_eq, List.drop_eq_getElem_cons hlt] at hstop
    have hspace : text[st'.i] = Ascii.space := by
      simpa [List.getElem?_eq_getElem hlt] using hstop
    rw [cellAt_of_lt (List.getElem?_eq_getElem hlt), hspace]
    rfl
  · rw [hend, cellAt_length]

/-- A round inside the line finds one argument. -/
theorem round_spec (h : st.Filled text) (hi : st.i ≤ text.length) :
    (round text st).Filled text ∧ st.i < (round text st).i ∧ (round text st).i ≤ text.length + 1 ∧
      ∃ offset ≤ text.length, (round text st).argv = st.argv ++ [offset] ∧
        argsOf (text.drop st.i) = wordAt text offset ::
          if (round text st).i ≤ text.length then argsOf (text.drop (round text st).i) else [] := by
  have hskip := skipSpaces_passed h
  have hskipLe := hskip.le_length hi
  have hcopy : Passed (· != Ascii.space) text
      { skipSpaces text st with argv := (skipSpaces text st).argv ++ [(skipSpaces text st).i] } _ :=
    copyWord_passed hskip.filled
  have hcopyLe := hcopy.le_length hskipLe
  refine ⟨hcopy.filled.store (hcopy.cellAt_eq hcopyLe),
    Nat.lt_succ_of_le (hskip.le.trans hcopy.le), Nat.succ_le_succ hcopyLe,
    (skipSpaces text st).i, hskipLe, ?_, ?_⟩
  · rw [round, store_argv, hcopy.argv_eq, hskip.argv_eq]
  · rw [argsOf_eq, ← hskip.drop_eq, ← hcopy.drop_eq]
    refine congrArg (List.cons (wordAt text _)) ?_
    rcases hcopyLe.lt_or_eq with hlt | hend
    · rw [List.drop_eq_getElem_cons hlt]
      exact (if_pos hlt).symm
    · rw [List.drop_eq_nil_of_le hend.ge]
      exact (if_neg (by rw [round, store_i, hend]; omega)).symm

/-- The outer loop ends, with every index of `s` stored to and the arguments found. -/
theorem splitLoop_spec {fuel : ℕ} (h : st.Filled text) (hi : st.i ≤ text.length)
    (hfuel : text.length + 2 ≤ fuel + st.i) :
    ∃ st', splitLoop text fuel st = some st' ∧ st'.Filled text ∧ st'.i = text.length + 1 ∧
      ∃ offsets, st'.argv = st.argv ++ offsets ∧ (∀ o ∈ offsets, o ≤ text.length) ∧
        offsets.map (wordAt text) = argsOf (text.drop st.i) := by
  induction fuel generalizing st with
  | zero => omega
  | succ fuel ih =>
    have hinside : ¬ (skipSpaces text st).i > text.length :=
      Nat.not_lt.mpr ((skipSpaces_passed h).le_length hi)
    obtain ⟨hfilled, hlt, hle, offset, hoffset, hargv, hargs⟩ := round_spec h hi
    rw [splitLoop_succ, if_neg hinside]
    by_cases hmore : (round text st).i ≤ text.length
    · obtain ⟨st', hloop, hfilled', hi', offsets, hargv', hbound, hwords⟩ :=
        ih hfilled hmore (by omega)
      refine ⟨st', hloop, hfilled', hi', offset :: offsets, ?_, ?_, ?_⟩
      · rw [hargv', hargv, List.append_assoc]
        rfl
      · exact List.forall_mem_cons.mpr ⟨hoffset, hbound⟩
      · rw [List.map_cons, hwords, hargs, if_pos hmore]
    · -- the line is used up, so the next round only finds the end
      obtain ⟨fuel, rfl⟩ : ∃ n, fuel = n + 1 := Nat.exists_eq_succ_of_ne_zero (by omega)
      refine ⟨round text st, splitLoop_done (by omega) fuel, hfilled, by omega, [offset], hargv, ?_, ?_⟩
      · exact List.forall_mem_singleton.mpr hoffset
      · rw [hargs, if_neg hmore]
        rfl

end Splitter

open Splitter

/-- What the splitting of a line leaves. -/
theorem split_spec (text : List (BitVec 8)) :
    ∃ st, split text = some st ∧ st.Filled text ∧ st.i = text.length + 1 ∧
      (∀ o ∈ st.argv, o ≤ text.length) ∧ st.argv.map (wordAt text) = argsOf text := by
  obtain ⟨st, hsplit, hfilled, hi, offsets, hargv, hbound, hwords⟩ :=
    @splitLoop_spec text ⟨0, [], []⟩ (text.length + 2) rfl (Nat.zero_le _) le_rfl
  rw [List.nil_append] at hargv
  exact ⟨st, hsplit, hfilled, hi, hargv ▸ hbound, hargv ▸ hwords⟩

/-! ### The arguments -/

/-- Storing to the first indices one after another replaces the start of the buffer. -/
theorem foldl_set (g : ℕ → BitVec 8) (garbage : List (BitVec 8)) {n : ℕ} (hn : n ≤ garbage.length) :
    ((List.range n).map fun k => (k, g k)).foldl (fun s entry => s.set entry.1 entry.2) garbage =
      (List.range n).map g ++ garbage.drop n := by
  induction n with
  | zero => rfl
  | succ n ih =>
    have hlen : ((List.range n).map g).length = n := by simp
    rw [List.range_succ, List.map_append, List.foldl_append, ih (by omega), List.map_append,
      List.append_assoc, List.drop_eq_getElem_cons hn]
    simp only [List.map_cons, List.map_nil, List.foldl_cons, List.foldl_nil]
    rw [List.set_append_right _ _ hlen.le, hlen, Nat.sub_self, List.set_cons_zero]
    rfl

theorem map_cellAt (text : List (BitVec 8)) :
    (List.range (text.length + 1)).map (cellAt text) = text.map separated ++ [Ascii.nul] := by
  rw [List.range_succ, List.map_append]
  refine congrArg₂ (· ++ ·) (List.ext_getElem (by simp) ?_) (by simp [cellAt_length])
  intro k hk hk'
  have hlt : k < text.length := by simpa using hk
  rw [List.getElem_map, List.getElem_range, cellAt_of_lt (List.getElem?_eq_getElem hlt),
    List.getElem_map]

/-- Up to the first zero byte, the copy of a text is the text up to its first space. -/
theorem takeWhile_separated {rest : List (BitVec 8)} (hnul : Ascii.nul ∉ rest) :
    (rest.map separated ++ [Ascii.nul]).takeWhile (· != Ascii.nul) =
      rest.takeWhile (· != Ascii.space) := by
  induction rest with
  | nil => rfl
  | cons ch rest ih =>
    rw [List.mem_cons, not_or] at hnul
    by_cases hch : ch = Ascii.space
    · subst hch
      rfl
    · have hsep : separated ch = ch := if_neg hch
      rw [List.map_cons, List.cons_append, hsep, List.takeWhile_cons_of_pos (by simpa using Ne.symm hnul.1),
        List.takeWhile_cons_of_pos (by simpa using hch), ih hnul.2]

/-- A string in the filled buffer is the word at its offset. -/
theorem stringAt_filled {text : List (BitVec 8)} (hnul : Ascii.nul ∉ text) {o : ℕ}
    (ho : o ≤ text.length) :
    stringAt ((List.range (text.length + 1)).map (cellAt text)) o = wordAt text o := by
  have hrest : Ascii.nul ∉ text.drop o := fun hmem => hnul (List.mem_of_mem_drop hmem)
  rw [map_cellAt, stringAt, List.drop_append_of_le_length (by simpa using ho), ← List.map_drop,
    takeWhile_separated hrest, wordAt]

/-- The arguments of a line, whatever the buffer held before. -/
theorem execArgs_eq {garbage text : List (BitVec 8)} (hgarbage : garbage.length = text.length + 1)
    (hnul : Ascii.nul ∉ text) :
    execArgs garbage text = if (argsOf text).length ≤ kMaxArgs then some (argsOf text) else none := by
  obtain ⟨st, hsplit, hfilled, hi, hbound, hwords⟩ := split_spec text
  have hbuffer : st.stores.foldl (fun s entry => s.set entry.1 entry.2) garbage =
      (List.range (text.length + 1)).map (cellAt text) := by
    rw [hfilled, hi, foldl_set _ _ hgarbage.ge, List.drop_eq_nil_of_le hgarbage.le, List.append_nil]
  have hargs : st.argv.map (stringAt ((List.range (text.length + 1)).map (cellAt text))) = argsOf text := by
    rw [← hwords]
    exact List.map_congr_left fun o ho => stringAt_filled hnul (hbound o ho)
  have hcount : st.argv.length = (argsOf text).length := by rw [← hwords, List.length_map]
  rw [execArgs, hsplit, Option.bind_some, hbuffer, hargs, hcount]

theorem argsOf_of_ne_nil {text : List (BitVec 8)} (htext : text ≠ []) :
    argsOf text = commandWords text ++ if text.getLast? = some Ascii.space then [[]] else [] := by
  obtain ⟨last, hlast⟩ : ∃ last, text.getLast? = some last :=
    Option.isSome_iff_exists.mp (by simpa using htext)
  have hspace : (some last).all (· == Ascii.space) ↔ some last = some Ascii.space := by simp
  rw [argsOf, hlast]
  simp only [hspace]

/-- **Splitting a line into its words.** For every line with at least one character, the
arguments `Exec` passes on are the words of the line exactly when the line does not end with
a space and has no more words than `argv` has room for. -/
theorem execArgs_words_iff {garbage text : List (BitVec 8)}
    (hgarbage : garbage.length = text.length + 1) (hnul : Ascii.nul ∉ text) (htext : text ≠ []) :
    execArgs garbage text = some (commandWords text) ↔
      text.getLast? ≠ some Ascii.space ∧ (commandWords text).length ≤ kMaxArgs := by
  rw [execArgs_eq hgarbage hnul, argsOf_of_ne_nil htext]
  by_cases hspace : text.getLast? = some Ascii.space
  · -- the empty argument comes on top of the words
    refine iff_of_false ?_ fun h => h.1 hspace
    intro heq
    have hlength := congrArg List.length (Option.some.inj (Option.ite_none_right_eq_some.mp heq).2)
    simp [hspace] at hlength
  · rw [if_neg hspace, List.append_nil, and_iff_right hspace, Option.ite_none_right_eq_some,
      and_iff_left rfl]

theorem execArgs_words_iff_echo :
    execArgs [0, 0, 0, 0, 0, 0, 0, 0, 0] [0x20, 0x65, 0x63, 0x68, 0x6f, 0x20, 0x20, 0x61] =
      some (commandWords [0x20, 0x65, 0x63, 0x68, 0x6f, 0x20, 0x20, 0x61]) :=
  (execArgs_words_iff rfl (by decide) (by decide)).mpr ⟨by decide, by decide⟩

/-- A space after `lspci` makes it a call with an empty device specifier. -/
theorem not_words_trailing_space :
    let garbage := List.replicate 7 (0 : BitVec 8)
    let text : List (BitVec 8) := [0x6c, 0x73, 0x70, 0x63, 0x69, 0x20]
    exec garbage text = some (.call .lspci [[0x6c, 0x73, 0x70, 0x63, 0x69], []]) ∧
      execArgs garbage text ≠ some (commandWords text) :=
  ⟨rfl, by decide⟩

end Bitnos
