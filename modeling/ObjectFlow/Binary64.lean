/-!
# Floating-point numbers with 64 bits

A finite number is counted in units of the smallest positive one, two to the power of
-1074.  A number has at most 53 significant bits.  The two zeros are one number here, and
so are all that are not numbers.
-/

namespace ObjectFlow

inductive Binary64 where
  | notANumber
  | infinite (negative : Bool)
  /-- So many times the smallest positive number. -/
  | finite (units : Int)
  deriving DecidableEq, Repr

namespace Binary64

/-- A quotient rounded to the nearest natural number, a tie to the even one. -/
def roundQuotient (numerator denominator : Nat) : Nat :=
  let quotient := numerator / denominator
  let twice := 2 * (numerator % denominator)
  if denominator < twice ∨ (twice = denominator ∧ quotient % 2 = 1) then quotient + 1
  else quotient

/-- The number of low bits that do not fit into 53 significant ones. -/
def excess (units : Nat) : Nat := Nat.log2 units + 1 - 53

/-- A quotient in units, rounded to 53 significant bits. -/
def roundUnits (numerator denominator : Nat) : Nat :=
  let spacing := Nat.pow 2 (excess (numerator / denominator))
  roundQuotient numerator (denominator * spacing) * spacing

/-- Numbers from here on are rounded to infinity. -/
def limit : Nat := Nat.pow 2 (1024 + 1074)

/-- The finite number nearest to a quotient, in units. -/
def units? (numerator denominator : Nat) : Option Nat :=
  let units := roundUnits (numerator * Nat.pow 2 1074) denominator
  if units < limit then some units else none

/-- The finite number nearest to a number with a power of ten, in units.  `digits` is the
number of its decimal digits: very large and very small numbers are told by it alone. -/
def scientific? (significand digits : Nat) (exponent : Int) : Option Nat :=
  if significand = 0 ∨ digits + exponent < -330 then some 0
  else if 330 < digits + exponent then none
  else if 0 ≤ exponent then units? (significand * Nat.pow 10 exponent.toNat) 1
  else units? significand (Nat.pow 10 (-exponent).toNat)

end Binary64

end ObjectFlow
