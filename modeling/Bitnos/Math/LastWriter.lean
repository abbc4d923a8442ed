/-
# The last writer wins

Calls one after another, each for one place. What a place holds afterwards is what the
last call for it wrote, or what it held before if there was none.
-/

import Mathlib.Data.List.Basic
import Mathlib.Data.List.Induction
import Mathlib.Logic.Function.Basic

namespace LastWriter

variable {κ α β : Type*} [DecidableEq κ] {place : α → κ} {calls : List α} {call : α} {k : κ}

/-- The last call for a place. -/
def last (place : α → κ) (calls : List α) (k : κ) : Option α :=
  (calls.filter fun call => place call = k).getLast?

theorem last_concat : last place (calls ++ [call]) k =
    if place call = k then some call else last place calls k := by
  rw [last, List.filter_append]
  split_ifs with hk
  · rw [List.filter_cons_of_pos (by simpa using hk)]
    exact List.getLast?_concat
  · rw [List.filter_cons_of_neg (by simpa using hk), List.filter_nil, List.append_nil]
    rfl

/-- The updates of a function one after another. -/
theorem foldl_update (value : α → β) (f : κ → β) (calls : List α) (k : κ) :
    calls.foldl (fun f call => Function.update f (place call) (value call)) f k =
      ((last place calls k).map value).getD (f k) := by
  induction calls using List.reverseRecOn with
  | nil => rfl
  | append_singleton calls call ih =>
    rw [List.foldl_concat, last_concat]
    split_ifs with hk
    · subst hk
      exact Function.update_self ..
    · rw [Function.update_of_ne (Ne.symm hk), ih]

end LastWriter
