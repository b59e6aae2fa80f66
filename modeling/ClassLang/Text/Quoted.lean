import ClassLang.Text.Printable

/-!
# Quoted text

How a text is shown inside a message. It stands between single quotes, or between double quotes if
it holds a single quote and no double quote. Backslashes and the chosen quote are escaped, so are
line feed, carriage return and tab; any other unprintable character is written as its number in
hexadecimal with two, four or eight digits.
-/

namespace ClassLang.Quoted

/-- The last `width` hexadecimal digits of a number. -/
def hex : Nat → Nat → List Char
  | 0, _ => []
  | width + 1, n => hex width (n / 16) ++ [Nat.digitChar (n % 16)]

def quoteOf (cs : List Char) : Char :=
  if '\x27' ∈ cs ∧ '\x22' ∉ cs then '\x22' else '\x27'

/-- One character as it is shown between the given quotes. -/
def escape (quote c : Char) : List Char :=
  if c = quote ∨ c = '\\' then ['\\', c]
  else if c = '\n' then ['\\', 'n']
  else if c = '\r' then ['\\', 'r']
  else if c = '\t' then ['\\', 't']
  else if Printable.isPrintable c then [c]
  else if c.toNat < 0x100 then '\\' :: 'x' :: hex 2 c.toNat
  else if c.toNat < 0x10000 then '\\' :: 'u' :: hex 4 c.toNat
  else '\\' :: 'U' :: hex 8 c.toNat

def encode (cs : List Char) : List Char :=
  quoteOf cs :: (cs.flatMap (escape (quoteOf cs)) ++ [quoteOf cs])

def quote (s : String) : String := String.ofList (encode s.toList)

/-- A text in quotes, cut after so many characters. -/
def quoteUpTo (limit : Nat) (s : String) : String := String.ofList ((encode s.toList).take limit)

/-- A list of shown items between brackets. -/
def list (items : List String) : String := "[" ++ ", ".intercalate items ++ "]"

/-- A tuple of shown items: a single item is followed by a comma. -/
def tuple : List String → String
  | [item] => "(" ++ item ++ ",)"
  | items => "(" ++ ", ".intercalate items ++ ")"

/-- A record of shown entries under their names. -/
def record (kind : String) (entries : List (String × String)) : String :=
  kind ++ "(" ++ ", ".intercalate (entries.map fun (name, item) => name ++ "=" ++ item) ++ ")"

/-- A truth value as it is shown in messages. -/
def flag (b : Bool) : String := if b then "True" else "False"

/-- A missing thing as it is shown in messages. -/
def missing : String := "None"

end ClassLang.Quoted
