import ClassLang.Number.Binary64
import ClassLang.Text.Ascii
import ClassLang.Text.Blank
import ClassLang.Text.DecimalDigit
import ClassLang.Text.Quoted

/-!
# Reading numerals

An integer is an optional sign and decimal digits, of any script, between blanks. Single
underscores may stand between digits. A run of more than 4300 digits is refused before anything
behind it is looked at. A floating point number follows the same rules and may have a point, an
exponent, or be one of the words for infinity and for no number.
-/

namespace ClassLang.Numeral

inductive Fault where
  | integer (text : String)
  | digits (count : Nat)
  | float (text : String)
  deriving DecidableEq, Repr

def digitLimit : Nat := 4300

/-- The most characters of a refused integer that are shown. -/
def shownLimit : Nat := 200

def Fault.text : Fault → String
  | .integer s => "invalid literal for int() with base 10: " ++ Quoted.quoteUpTo shownLimit s
  | .digits n =>
    s!"Exceeds the limit ({digitLimit} digits) for integer string conversion: value has {n} " ++
      "digits; use sys.set_int_max_str_digits() to increase the limit"
  | .float s => "could not convert string to float: " ++ Quoted.quote s

/-! ### Characters of numerals -/

/-- A numeral's character in ASCII: digits of all scripts and all blanks are alike. -/
def toAscii (c : Char) : Char :=
  if c.toNat < 0x7f then c
  else if Blank.isWideBlank c then ' '
  else
    match DecimalDigit.value? c with
    | some d => Nat.digitChar d
    | none => '?'

def trim (cs : List Char) : List Char :=
  ((cs.dropWhile Blank.isAsciiBlank).reverse.dropWhile Blank.isAsciiBlank).reverse

def valueOf (ds : List Char) : Nat := ds.foldl (fun n c => 10 * n + (c.toNat - '0'.toNat)) 0

def splitSign : List Char → Bool × List Char
  | '-' :: cs => (true, cs)
  | '+' :: cs => (false, cs)
  | cs => (false, cs)

/-- Whether every underscore stands between two digits; `previous` says whether a digit comes
before. -/
def underscoresOk : Bool → List Char → Bool
  | _, [] => true
  | previous, '_' :: cs =>
    previous && (match cs with
      | [] => false
      | c :: _ => Ascii.isDigit c) && underscoresOk false cs
  | _, c :: cs => underscoresOk (Ascii.isDigit c) cs

/-! ### Integers -/

def integer (s : String) : Except Fault Int :=
  let (negative, cs) := splitSign (trim (s.toList.map toAscii))
  let run := cs.takeWhile fun c => Ascii.isDigit c || c = '_'
  let ds := run.filter Ascii.isDigit
  if !underscoresOk false run then .error (.integer s)
  else if digitLimit < ds.length then .error (.digits ds.length)
  else if ds.isEmpty || run.length < cs.length then .error (.integer s)
  else .ok (if negative then -(valueOf ds : Int) else valueOf ds)

/-! ### Floating point numbers -/

/-- The magnitudes that are written as words, in lower case. -/
def words : List (String × Nat) :=
  [("inf", Binary64.infinity), ("infinity", Binary64.infinity),
    ("nan", Binary64.infinity + Nat.pow 2 51)]

def exponent? : List Char → Option Int
  | [] => some 0
  | c :: cs =>
    if c = 'e' ∨ c = 'E' then
      let (negative, ds) := splitSign cs
      if ds.isEmpty || !ds.all Ascii.isDigit then none
      else some (if negative then -(valueOf ds : Int) else valueOf ds)
    else none

/-- The magnitude of an unsigned number without underscores. -/
def magnitude? (cs : List Char) : Option Nat :=
  let whole := cs.takeWhile Ascii.isDigit
  let rest := cs.dropWhile Ascii.isDigit
  let (fraction, rest) :=
    match rest with
    | '.' :: rest => (rest.takeWhile Ascii.isDigit, rest.dropWhile Ascii.isDigit)
    | _ => ([], rest)
  if whole.isEmpty && fraction.isEmpty then none
  else
    (exponent? rest).map fun e =>
      Binary64.ofDecimal (valueOf (whole ++ fraction)) (e - fraction.length)

def float (s : String) : Except Fault Binary64 :=
  let cs := trim (s.toList.map toAscii)
  let (negative, body) := splitSign cs
  if !underscoresOk false cs then .error (.float s)
  else
    let plain := body.filter (· ≠ '_')
    match words.lookup (String.ofList (plain.map Char.toLower)) with
    | some m =>
      .ok (Binary64.ofMagnitude negative m)
    | none =>
      match magnitude? plain with
      | some m => .ok (Binary64.ofMagnitude negative m)
      | none => .error (.float s)

end ClassLang.Numeral
