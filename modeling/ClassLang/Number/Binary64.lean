/-!
# Double precision numbers

A number is kept as its 64 bits: a sign, eleven bits of exponent and 52 bits of fraction. A finite
magnitude is `significand · 2 ^ exponent`, both read off the bits. `ofRatio` rounds a quotient of
natural numbers to the nearest magnitude, ties going to the even significand. Magnitudes are
ordered as their bits are, which is why rounding can assemble the bits by one addition: the bits
of a rounded significand at the scale `2 ^ (s - 1074)` are `s · 2 ^ 52` plus that significand, also
where rounding carries it into the next power of two.
-/

namespace ClassLang

structure Binary64 where
  bits : UInt64
  deriving DecidableEq, Repr

namespace Binary64

/-- The bits without the sign: the magnitude. -/
def magnitude (x : Binary64) : Nat := x.bits.toNat % Nat.pow 2 63

def isNegative (x : Binary64) : Bool := Nat.pow 2 63 ≤ x.bits.toNat

/-- The magnitude of the infinities; larger ones are no numbers. -/
def infinity : Nat := 2047 * Nat.pow 2 52

def isNaN (x : Binary64) : Bool := infinity < x.magnitude

def isInfinite (x : Binary64) : Bool := x.magnitude == infinity

def ofMagnitude (negative : Bool) (m : Nat) : Binary64 :=
  ⟨UInt64.ofNat (if negative then Nat.pow 2 63 + m else m)⟩

/-- The scale of a finite magnitude: its unit is `2 ^ (scale - 1074)`. -/
def scale (m : Nat) : Nat := m / Nat.pow 2 52 - 1

/-- The significand of a finite magnitude, counted in its units. -/
def significand (m : Nat) : Nat :=
  if m < Nat.pow 2 52 then m else Nat.pow 2 52 + m % Nat.pow 2 52

theorem scale_add_significand {m : Nat} : scale m * Nat.pow 2 52 + significand m = m := by
  have hp : Nat.pow 2 52 = 4503599627370496 := rfl
  unfold scale significand
  rw [hp]
  split <;> omega

/-- Equality of numbers: the zeros are equal and no number equals one that is none. -/
def same (x y : Binary64) : Bool :=
  !x.isNaN && !y.isNaN && (x.bits == y.bits || (x.magnitude == 0 && y.magnitude == 0))

/-! ### Rounding -/

def roundDiv (num den : Nat) : Nat :=
  let q := num / den
  let r := num % den
  if den < 2 * r ∨ (den = 2 * r ∧ q % 2 = 1) then q + 1 else q

theorem roundDiv_mul {q den : Nat} (h : 0 < den) : roundDiv (q * den) den = q := by
  simp only [roundDiv, Nat.mul_mod_left, Nat.mul_div_left q h]
  rw [if_neg]
  omega

/-- The scale at which a magnitude near `num / den` is rounded: its unit is the smallest that
leaves at most 53 bits. -/
def scaleOfRatio (num den : Nat) : Nat :=
  (num * Nat.pow 2 1074 / den).log2 - 52

def ofRatio (num den : Nat) : Nat :=
  let s := scaleOfRatio num den
  min infinity (s * Nat.pow 2 52 + roundDiv (num * Nat.pow 2 1074) (den * Nat.pow 2 s))

/-- The magnitude nearest to `m · 10 ^ e`. A number with more than 310 digits before the point is
infinite, one with more than 400 zeros behind it is nothing. -/
def ofDecimal (m : Nat) (e : Int) : Nat :=
  if m = 0 then 0
  else
    let digits : Int := (Nat.toDigits 10 m).length
    if 310 < digits + e then infinity
    else if digits + e < -400 then 0
    else if 0 ≤ e then ofRatio (m * Nat.pow 10 e.toNat) 1
    else ofRatio m (Nat.pow 10 (-e).toNat)

end Binary64

end ClassLang
