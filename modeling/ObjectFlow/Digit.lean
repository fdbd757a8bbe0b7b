/-!
# Digits

The values of digits in bases up to sixteen, in upper and lower case.
-/

namespace ObjectFlow.Digit

/-- The value of a digit. -/
def value? (base : Nat) (c : Char) : Option Nat :=
  let value :=
    if c.isDigit then c.toNat - '0'.toNat
    else if 'a' ≤ c ∧ c ≤ 'f' then c.toNat - 'a'.toNat + 10
    else if 'A' ≤ c ∧ c ≤ 'F' then c.toNat - 'A'.toNat + 10
    else base
  if value < base then some value else none

/-- The number that a non-empty row of digits spells. -/
def number? (base : Nat) : List Char → Option Nat
  | [] => none
  | cs => cs.foldlM (fun number c => (value? base c).map (number * base + ·)) 0

end ObjectFlow.Digit
