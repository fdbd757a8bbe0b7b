import ObjectFlow.Digit
import ObjectFlow.Yaml.Basic
import ObjectFlow.Yaml.Tag

/-!
# What scalars stand for

A scalar without quotes is null, a truth value, a number or a text, whichever its
spelling says.  Integers may be written in base 16, 8 or 2 and have 64 bits.  Wider
ones are refused up to 128 bits; beyond that they are no integers any more.  Digits
after a leading zero make a text.  A tag of the standard says which of these a scalar has
to be, with quotes or without.
-/

namespace ObjectFlow.Yaml

namespace Scalar

/-- Without one leading sign. -/
def unsigned : List Char → List Char
  | '+' :: cs => cs
  | '-' :: cs => cs
  | cs => cs

/-- More than one digit, of which the first is zero. -/
def leadingZero (cs : List Char) : Bool :=
  match unsigned cs with
  | '0' :: c :: rest => (c :: rest).all Char.isDigit
  | _ => false

/-- The number that an integer without sign spells. -/
def natural? : List Char → Option Nat
  | '0' :: 'x' :: cs => Digit.number? 16 cs
  | '0' :: 'o' :: cs => Digit.number? 8 cs
  | '0' :: 'b' :: cs => Digit.number? 2 cs
  | cs => if leadingZero cs then none else Digit.number? 10 cs

/-- The number that an integer spells. -/
def integer? : List Char → Option Int
  | '-' :: cs => (natural? cs).map fun value => -(value : Int)
  | '+' :: cs => (natural? cs).map fun value => (value : Int)
  | cs => (natural? cs).map fun value => (value : Int)

/-- Whether an integer can be held in 64 bits, the negative ones with a sign. -/
def isNarrow (value : Int) : Bool :=
  -(Nat.pow 2 63 : Nat) ≤ value ∧ value < (Nat.pow 2 64 : Nat)

/-- Whether an integer can be held in 128 bits, the negative ones with a sign. -/
def isWide (value : Int) : Bool :=
  -(Nat.pow 2 127 : Nat) ≤ value ∧ value < (Nat.pow 2 128 : Nat)

/-- The parts of a decimal number. -/
structure Decimal where
  whole : List Char
  fraction : List Char
  exponent : Int

/-- The exponent of a decimal number. -/
def exponent? : List Char → Option Int
  | [] => some 0
  | e :: cs =>
    if e = 'e' ∨ e = 'E' then
      match cs with
      | '-' :: cs => (Digit.number? 10 cs).map fun value => -(value : Int)
      | '+' :: cs => (Digit.number? 10 cs).map fun value => (value : Int)
      | cs => (Digit.number? 10 cs).map fun value => (value : Int)
    else none

/-- A decimal number without sign: digits before or after the point, then an exponent. -/
def decimal? (cs : List Char) : Option Decimal :=
  let whole := cs.takeWhile Char.isDigit
  let rest := cs.dropWhile Char.isDigit
  let (fraction, rest) :=
    match rest with
    | '.' :: rest => (rest.takeWhile Char.isDigit, rest.dropWhile Char.isDigit)
    | rest => ([], rest)
  if whole.isEmpty ∧ fraction.isEmpty then none
  else (exponent? rest).map fun exponent => { whole, fraction, exponent }

/-- The nearest floating-point number, if it is finite, in units. -/
def Decimal.units? (decimal : Decimal) : Option Nat :=
  let significant := (decimal.whole ++ decimal.fraction).dropWhile (· = '0')
  Binary64.scientific? ((Digit.number? 10 significant).getD 0) significant.length
    (decimal.exponent - decimal.fraction.length)

/-- The spellings of what is no finite number. -/
def specials : List (String × Binary64) :=
  [(".inf", .infinite false), (".Inf", .infinite false), (".INF", .infinite false),
    ("+.inf", .infinite false), ("+.Inf", .infinite false), ("+.INF", .infinite false),
    ("-.inf", .infinite true), ("-.Inf", .infinite true), ("-.INF", .infinite true),
    (".nan", .notANumber), (".NaN", .notANumber), (".NAN", .notANumber)]

/-- The finite floating-point number that a scalar spells. -/
def finite? (cs : List Char) : Option Binary64 := do
  let units ← (← decimal? (unsigned cs)).units?
  return .finite (if cs.head? = some '-' then -(units : Int) else units)

/-- The floating-point number that a scalar spells. -/
def real? (content : String) : Option Binary64 :=
  match specials.lookup content with
  | some special => some special
  | none => finite? content.toList

/-- The spellings of null, apart from nothing at all. -/
def isNull (content : String) : Bool := ["~", "null", "Null", "NULL"].contains content

/-- The truth value that a scalar spells. -/
def bool? (content : String) : Option Bool :=
  if ["true", "True", "TRUE"].contains content then some true
  else if ["false", "False", "FALSE"].contains content then some false
  else none

end Scalar

open Scalar

/-- The number that a scalar without quotes stands for, or else its text. -/
def ofNumber? (content : String) : Option Yaml :=
  let cs := content.toList
  match (integer? cs).filter isWide with
  | some value => if isNarrow value then some (.integer value) else none
  | none =>
    if leadingZero cs then some (.text content)
    else some ((real? content).elim (.text content) .real)

/-- What a scalar without quotes stands for. -/
def ofPlain? (content : String) : Option Yaml :=
  if content.isEmpty || isNull content then some .null
  else
    match Scalar.bool? content with
    | some value => some (.bool value)
    | none => ofNumber? content

/-- What a scalar with a tag stands for. -/
def ofScalar? (tag : Option Tag) (plain : Bool) (content : String) : Option Yaml :=
  let untagged := if plain then ofPlain? content else some (.text content)
  match tag with
  | none | some .unreadable => untagged
  | some (.named name) => untagged.map (.tagged name)
  | some .null => if isNull content then some .null else none
  | some .bool => (Scalar.bool? content).map .bool
  | some .integer => ((integer? content.toList).filter isNarrow).map .integer
  | some .real => (real? content).map .real
  | some .other => some (.text content)

end ObjectFlow.Yaml
