/-!
# Blank characters

Three kinds of blank are told apart. The language itself separates tokens by five ASCII characters
(`isLayout`). A numeral may be surrounded by any character that Unicode calls white space
(`isNumeralBlank`). Splitting a text into words also breaks at the four information separators
(`isWordBreak`). Each kind is contained in the next one. Inside the opening of a matrix type all
blanks of the language but the form feed may stand (`isMatrixBlank`).
-/

namespace ClassLang.Blank

/-- Blanks between the tokens of the language. -/
def isLayout (c : Char) : Bool :=
  c = ' ' || c = '\t' || c = '\x0c' || c = '\r' || c = '\n'

/-- Blanks inside the opening of a matrix type. -/
def isMatrixBlank (c : Char) : Bool := c = ' ' || c = '\t' || c = '\r' || c = '\n'

/-- Blanks of the ASCII range that may surround a numeral. -/
def isAsciiBlank (c : Char) : Bool := c = ' ' || ('\t' ≤ c && c ≤ '\r')

def isWideBlank (c : Char) : Bool :=
  c = '\u0085' || c = '\u00a0' || c = '\u1680' || ('\u2000' ≤ c && c ≤ '\u200a') ||
    c = '\u2028' || c = '\u2029' || c = '\u202f' || c = '\u205f' || c = '\u3000'

/-- Blanks that may surround a numeral. -/
def isNumeralBlank (c : Char) : Bool := isAsciiBlank c || isWideBlank c

def isWordBreak (c : Char) : Bool := isNumeralBlank c || ('\x1c' ≤ c && c ≤ '\x1f')

theorem isNumeralBlank_of_isLayout {c : Char} (h : isLayout c = true) :
    isNumeralBlank c = true := by
  simp only [isLayout, Bool.or_eq_true, decide_eq_true_eq] at h
  rcases h with (((h | h) | h) | h) | h <;> subst h <;> decide

theorem isWordBreak_of_isNumeralBlank {c : Char} (h : isNumeralBlank c = true) :
    isWordBreak c = true := by
  simp only [isWordBreak, h, Bool.true_or]

/-- The words of a text: its maximal pieces without word breaks. -/
def words (cs : List Char) : List (List Char) :=
  (cs.splitOnP isWordBreak).filter (fun w => !w.isEmpty)

end ClassLang.Blank
