/-!
# Excerpts

A place in a text is shown by the piece of its line around it, at most forty characters to either
side, and a caret under the character at the place. Tabs before the place are widened to multiples
of eight columns, so the caret stands right where tabs are shown that wide.
-/

namespace ClassLang.Excerpt

/-- How many characters are shown to either side. -/
def reach : Nat := 40

def tabWidth : Nat := 8

/-- A text that starts at a column, with its tabs as spaces. A line end starts the columns anew. -/
def expandTabs : Nat → List Char → List Char
  | _, [] => []
  | column, c :: cs =>
    if c = '\t' then
      let width := tabWidth - column % tabWidth
      List.replicate width ' ' ++ expandTabs (column + width) cs
    else if c = '\n' ∨ c = '\r' then c :: expandTabs 0 cs
    else c :: expandTabs (column + 1) cs

/-- The shown part of the line before an offset. -/
def before (cs : List Char) (offset : Nat) : List Char :=
  (((cs.take offset).reverse.take reach).takeWhile (· ≠ '\n')).reverse

/-- The shown part of the line from an offset on. -/
def after (cs : List Char) (offset : Nat) : List Char :=
  ((cs.drop offset).take reach).takeWhile (· ≠ '\n')

/-- The column of the caret, counted from 0. -/
def caret (cs : List Char) (offset : Nat) : Nat := (expandTabs 0 (before cs offset)).length

/-- The line around an offset and the caret line under it. -/
def around (cs : List Char) (offset : Nat) : List Char :=
  before cs offset ++ after cs offset ++ '\n' :: (List.replicate (caret cs offset) ' ' ++ ['^'])

theorem newline_not_mem_takeWhile (cs : List Char) : '\n' ∉ cs.takeWhile (· ≠ '\n') := by
  intro h
  have hall := List.all_eq_true.1 (List.all_takeWhile (p := (· ≠ '\n')) (l := cs)) _ h
  simp at hall

theorem newline_not_mem_before (cs : List Char) (offset : Nat) : '\n' ∉ before cs offset := by
  rw [before, List.mem_reverse]
  exact newline_not_mem_takeWhile _

theorem newline_not_mem_after (cs : List Char) (offset : Nat) : '\n' ∉ after cs offset :=
  newline_not_mem_takeWhile _

theorem before_length_le (cs : List Char) (offset : Nat) : (before cs offset).length ≤ reach := by
  have h := (List.takeWhile_sublist (p := (· ≠ '\n'))
    (l := (cs.take offset).reverse.take reach)).length_le
  rw [before, List.length_reverse]
  exact Nat.le_trans h (List.length_take_le _ _)

theorem after_length_le (cs : List Char) (offset : Nat) : (after cs offset).length ≤ reach := by
  have h := (List.takeWhile_sublist (p := (· ≠ '\n')) (l := (cs.drop offset).take reach)).length_le
  exact Nat.le_trans h (List.length_take_le _ _)

end ClassLang.Excerpt
