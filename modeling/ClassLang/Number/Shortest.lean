import ClassLang.Number.Binary64

/-!
# The shortest decimal text of a number

A number is written with the fewest digits that read back to it, and with the nearest such digits.
For one digit, two digits and so on up to seventeen, the two neighbours of the number on the grid
of that many digits are read back; the first grid with a hit gives the digits. Of two hits the
nearer is taken, and of two equally near ones the even. Should no grid give a hit, the exact
expansion stands in, so whatever is chosen reads back.
-/

namespace ClassLang.Binary64

/-- The number `coefficient · 10 ^ exponent`. -/
structure Decimal where
  coefficient : Nat
  exponent : Int
  deriving DecidableEq, Repr

namespace Decimal

def round (d : Decimal) : Nat := ofDecimal d.coefficient d.exponent

def digits (d : Decimal) : List Char :=
  ((Nat.toDigits 10 d.coefficient).reverse.dropWhile (· = '0')).reverse

/-- How many digits stand before the decimal point; zeros behind it count negatively. -/
def point (d : Decimal) : Int := (Nat.toDigits 10 d.coefficient).length + d.exponent

end Decimal

/-- A finite magnitude as an exact quotient. -/
def ratio (m : Nat) : Nat × Nat :=
  (significand m * Nat.pow 2 (scale m - 1074), Nat.pow 2 (1074 - scale m))

def digitCount (n : Nat) : Nat := (Nat.toDigits 10 n).length

/-- The exponent `k` with `10 ^ (k - 1) ≤ num / den < 10 ^ k`. -/
def decimalExponent (num den : Nat) : Int :=
  if den ≤ num then digitCount (num / den) else 1 - (digitCount (den / num) : Int)

/-- The decimal of `digits` digits that reads back to a magnitude, nearest first. -/
def hit? (m digits : Nat) : Option Decimal :=
  let (num, den) := ratio m
  let unit : Int := decimalExponent num den - digits
  let num' := num * Nat.pow 10 (-unit).toNat
  let den' := den * Nat.pow 10 unit.toNat
  let below : Decimal := ⟨num' / den', unit⟩
  let above : Decimal := ⟨num' / den' + 1, unit⟩
  let rest := num' % den'
  let upFirst := den' < 2 * rest || (den' == 2 * rest && below.coefficient % 2 == 1)
  let order := if upFirst then [above, below] else [below, above]
  order.find? fun d => d.round == m

/-- A finite magnitude as an exact decimal. -/
def exact (m : Nat) : Decimal :=
  let (num, _) := ratio m
  let places := 1074 - scale m
  ⟨num * Nat.pow 5 places, -(places : Int)⟩

def shortest (m : Nat) : Decimal :=
  ((List.range 17).findSome? fun n => hit? m (n + 1)).getD (exact m)

theorem round_of_hit? {m digits : Nat} {d : Decimal} (h : hit? m digits = some d) :
    d.round = m := by
  have hf := List.find?_some h
  exact eq_of_beq hf

/-! ### Layout of the digits -/

/-- Numbers from `10 ^ -4` on are written without an exponent. -/
def positionalFrom : Int := -4

/-- Numbers from `10 ^ 16` on are written with an exponent. -/
def positionalBelow : Int := 16

/-- An exponent with its sign and at least two digits. -/
def exponentText (e : Int) : List Char :=
  let ds := Nat.toDigits 10 e.natAbs
  (if e < 0 then '-' else '+') :: (List.replicate (2 - ds.length) '0' ++ ds)

/-- Digits with a decimal point after the first `point` of them. A point always has a digit on
either side, unless an exponent follows. -/
def layOut (ds : List Char) (point : Int) : List Char :=
  let e := point - 1
  if positionalFrom ≤ e ∧ e < positionalBelow then
    if point ≤ 0 then '0' :: '.' :: (List.replicate (-point).toNat '0' ++ ds)
    else if ds.length ≤ point.toNat then
      ds ++ List.replicate (point.toNat - ds.length) '0' ++ ['.', '0']
    else ds.take point.toNat ++ '.' :: ds.drop point.toNat
  else
    let tail := ds.drop 1
    ds.take 1 ++ (if tail.isEmpty then [] else '.' :: tail) ++ 'e' :: exponentText e

def text (x : Binary64) : String :=
  if x.isNaN then "nan"
  else
    let body :=
      if x.isInfinite then "inf".toList
      else if x.magnitude = 0 then "0.0".toList
      else
        let d := shortest x.magnitude
        layOut d.digits d.point
    String.ofList (if x.isNegative then '-' :: body else body)

end ClassLang.Binary64
