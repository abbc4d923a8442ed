/-
# The words of a list

The words are the maximal runs of elements that are not separators, in order.
-/

import Mathlib.Data.List.Basic

namespace Words

variable {α : Type*} {sep : α → Bool} {a : α} {l w : List α}

/-- The words of a list. -/
def words (sep : α → Bool) (l : List α) : List (List α) :=
  (l.splitOnP sep).filter fun w => !w.isEmpty

/-- A leading separator belongs to no word. -/
theorem words_cons_of_sep (ha : sep a) : words sep (a :: l) = words sep l := by
  rw [words, List.splitOnP_cons_eq_if_modifyHead, if_pos ha]
  rfl

/-- A list without separators is one word. -/
theorem words_of_forall (hw : ∀ x ∈ w, sep x = false) (hne : w ≠ []) : words sep w = [w] := by
  rw [words, List.splitOnP_eq_singleton hw]
  simpa using hne

/-- The first word ends at the first separator. -/
theorem words_append_cons (hw : ∀ x ∈ w, sep x = false) (hne : w ≠ []) (ha : sep a) :
    words sep (w ++ a :: l) = w :: words sep l := by
  rw [words, List.splitOnP_append_cons_of_forall_mem hw a ha, List.filter_cons_of_pos]
  · rfl
  · simpa using hne

/-- No separator is left in the parts of a list. -/
theorem sep_eq_false_of_mem_splitOnP (hw : w ∈ l.splitOnP sep) (ha : a ∈ w) : sep a = false := by
  induction l generalizing w with
  | nil =>
    obtain rfl := List.mem_singleton.mp hw
    exact absurd ha List.not_mem_nil
  | cons b l ih =>
    rw [List.splitOnP_cons_eq_if_modifyHead] at hw
    split_ifs at hw with hb
    · rcases List.mem_cons.mp hw with rfl | hw
      · exact absurd ha List.not_mem_nil
      · exact ih hw ha
    · obtain ⟨first, rest, hparts⟩ := List.exists_cons_of_ne_nil (List.splitOnP_ne_nil sep l)
      rw [hparts, List.modifyHead_cons] at hw
      rw [hparts] at ih
      rcases List.mem_cons.mp hw with rfl | hw
      · rcases List.mem_cons.mp ha with rfl | ha
        · exact Bool.eq_false_iff.mpr hb
        · exact ih List.mem_cons_self ha
      · exact ih (List.mem_cons_of_mem first hw) ha

theorem ne_nil_of_mem_words (hw : w ∈ words sep l) : w ≠ [] := by
  simpa using (List.mem_filter.mp hw).2

theorem sep_eq_false_of_mem_words (hw : w ∈ words sep l) (ha : a ∈ w) : sep a = false :=
  sep_eq_false_of_mem_splitOnP (List.mem_filter.mp hw).1 ha

/-- The words of a list put together from parts. -/
theorem words_intercalate [BEq α] [LawfulBEq α] {parts : List (List α)}
    (hparts : ∀ part ∈ parts, a ∉ part) :
    words (· == a) ([a].intercalate parts) = parts.filter fun part => !part.isEmpty := by
  cases parts with
  | nil => rfl
  | cons part parts =>
    rw [words, ← List.splitOn_eq_splitOnP,
      List.splitOn_intercalate a hparts (List.cons_ne_nil part parts)]

end Words
