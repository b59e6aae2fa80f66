import ClassLang.Number.Shortest
import ClassLang.Text.Quoted

/-!
# Values

The values that literals denote: a default, the null pointer, a byte written as a char, a truth
value, a double precision number, a text and an integer of any size. `text` is the source form of
a value, `shown` its form inside messages.
-/

namespace ClassLang

/-- A value; `default` stands for a value that was never given. -/
inductive Value where
  | default
  | nullptr
  | char (byte : UInt8)
  | bool (flag : Bool)
  | float (number : Binary64)
  | string (text : String)
  | integer (number : Int)
  deriving DecidableEq

namespace Value

/-- The char value of a number, if the number is a byte. -/
def ofByte? (n : Int) : Option Value :=
  if 0 ≤ n ∧ n < 256 then some (.char (UInt8.ofNat n.toNat)) else none

theorem ofByte?_isSome_iff (n : Int) : (ofByte? n).isSome ↔ 0 ≤ n ∧ n < 256 := by
  unfold ofByte?
  split <;> simp_all

theorem ofByte?_toNat (b : UInt8) : ofByte? b.toNat = some (.char b) := by
  have h := b.toNat_lt
  rw [ofByte?, if_pos ⟨by omega, by omega⟩, Int.toNat_natCast, UInt8.ofNat_toNat]

def isDefault : Value → Bool
  | .default => true
  | _ => false

def isNullptr : Value → Bool
  | .nullptr => true
  | _ => false

def kindName : Value → String
  | .default => "default"
  | .nullptr => "nullptr"
  | .char _ => "char"
  | .bool _ => "bool"
  | .float _ => "float"
  | .string _ => "string"
  | .integer _ => "integer"

def kindNumber : Value → Nat
  | .default => 0
  | .nullptr => 1
  | .char _ => 2
  | .bool _ => 3
  | .float _ => 4
  | .string _ => 5
  | .integer _ => 6

/-- The source form of a value. Text stands between its quotes as it was read. -/
def text : Value → String
  | .default => ""
  | .nullptr => "nullptr"
  | .bool b => if b then "true" else "false"
  | .char b => s!"'{b.toNat}'"
  | .string s => "\"" ++ s ++ "\""
  | .float x => x.text
  | .integer n => toString n

def shownData : Value → String
  | .default => Quoted.missing
  | .nullptr => Quoted.missing
  | .bool b => Quoted.flag b
  | .char b => toString b.toNat
  | .string s => Quoted.quote s
  | .float x => x.text
  | .integer n => toString n

def shown (v : Value) : String :=
  s!"Value(kind=<ValueKind.{v.kindName}: {v.kindNumber}>, data={v.shownData})"

/-- Equality of values, in which numbers are compared as numbers. -/
def same : Value → Value → Bool
  | .float x, .float y => x.same y
  | v, w => v == w

def same? : Option Value → Option Value → Bool
  | none, none => true
  | some v, some w => v.same w
  | _, _ => false

end Value

end ClassLang
