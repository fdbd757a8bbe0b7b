import ObjectFlow.Digit
import ObjectFlow.Json.Basic

/-!
# Tokens of JSON text

`Token.scan` cuts a text into brackets, separators, texts and other scalars.  It
refuses everything that is no token: a raw control character in a text, an unknown
escape, a number with a leading zero or with an empty fraction.  Two scalars that
touch are two tokens, which no sequence of values allows.
-/

namespace ObjectFlow.Json

inductive Token where
  | openBracket
  | closeBracket
  | openBrace
  | closeBrace
  | comma
  | colon
  | text (content : Option String)
  /-- A number, a truth value or null. -/
  | scalar (value : Json)

namespace Token

/-- The blanks that may stand between tokens. -/
def isBlank (c : Char) : Bool :=
  c == ' ' || c == '\t' || c == '\n' || c == '\r'

/-- The code unit of a four-digit escape. -/
def codeUnit? (a b c d : Char) : Option Nat := Digit.number? 16 [a, b, c, d]

def isHighSurrogate (unit : Nat) : Bool := 0xD800 ≤ unit && unit < 0xDC00

def isLowSurrogate (unit : Nat) : Bool := 0xDC00 ≤ unit && unit < 0xE000

/-- The character that a surrogate pair stands for. -/
def pairedChar (high low : Nat) : Char :=
  Char.ofNat (0x10000 + (high - 0xD800) * 0x400 + (low - 0xDC00))

/-- The character after a backslash, the four-digit escape apart. -/
def shortEscape? : Char → Option Char
  | '"' => some '"'
  | '\\' => some '\\'
  | '/' => some '/'
  | 'b' => some '\x08'
  | 'f' => some '\x0c'
  | 'n' => some '\n'
  | 'r' => some '\r'
  | 't' => some '\t'
  | _ => none

/-- What was read of a text: its characters, last first, absent once a surrogate was
found without its partner, and a high surrogate that waits for its partner. -/
structure Draft where
  chars : Option (List Char) := some []
  high : Option Nat := none

namespace Draft

/-- The draft after a character that is no surrogate. -/
def push (draft : Draft) (c : Char) : Draft :=
  match draft.high with
  | some _ => ⟨none, none⟩
  | none => ⟨draft.chars.map (c :: ·), none⟩

/-- The draft after a code unit that was written as an escape. -/
def pushUnit (draft : Draft) (unit : Nat) : Draft :=
  if isLowSurrogate unit then
    match draft.high with
    | some high => ⟨draft.chars.map (pairedChar high unit :: ·), none⟩
    | none => ⟨none, none⟩
  else if isHighSurrogate unit then
    match draft.high with
    | some _ => ⟨none, some unit⟩
    | none => ⟨draft.chars, some unit⟩
  else draft.push (Char.ofNat unit)

/-- The text that a draft holds at its closing quote. -/
def finish (draft : Draft) : Option String :=
  match draft.high with
  | some _ => none
  | none => draft.chars.map fun chars => String.ofList chars.reverse

end Draft

/-- Reads a text up to its closing quote. -/
def scanText (draft : Draft) : List Char → Option (Option String × List Char)
  | [] => none
  | '"' :: rest => some (draft.finish, rest)
  | '\\' :: 'u' :: a :: b :: c :: d :: rest =>
    match codeUnit? a b c d with
    | none => none
    | some unit => scanText (draft.pushUnit unit) rest
  | '\\' :: c :: rest =>
    match shortEscape? c with
    | none => none
    | some char => scanText (draft.push char) rest
  | c :: rest =>
    if c.toNat < 0x20 || c == '\\' then none
    else scanText (draft.push c) rest

def isDigit (c : Char) : Bool := '0' ≤ c && c ≤ '9'

/-- The number that a run of digits denotes. -/
def digitsValue (digits : List Char) : Nat :=
  digits.foldl (fun value c => value * 10 + (c.toNat - '0'.toNat)) 0

/-- A run of digits without a superfluous leading zero. -/
def scanWhole : List Char → Option (List Char × List Char)
  | '0' :: rest => some (['0'], rest)
  | chars =>
    match chars.span isDigit with
    | ([], _) => none
    | (digits, rest) => some (digits, rest)

/-- The fraction of a number, empty when there is none. -/
def scanFraction : List Char → Option (List Char × List Char)
  | '.' :: rest =>
    match rest.span isDigit with
    | ([], _) => none
    | (digits, rest) => some ('.' :: digits, rest)
  | chars => some ([], chars)

/-- The digits of an exponent after its optional sign. -/
def scanPower (mark : List Char) (chars : List Char) : Option (List Char × List Char) :=
  match chars.span isDigit with
  | ([], _) => none
  | (digits, rest) => some (mark ++ digits, rest)

/-- The exponent of a number, empty when there is none. -/
def scanExponent : List Char → Option (List Char × List Char)
  | c :: rest =>
    if c == 'e' || c == 'E' then
      match rest with
      | '+' :: rest => scanPower [c, '+'] rest
      | '-' :: rest => scanPower [c, '-'] rest
      | rest => scanPower [c] rest
    else some ([], c :: rest)
  | [] => some ([], [])

/-- A number after its optional sign. -/
def scanNumber (negative : Bool) (chars : List Char) : Option (Json × List Char) := do
  let (whole, rest) ← scanWhole chars
  let (fraction, rest) ← scanFraction rest
  let (exponent, rest) ← scanExponent rest
  let value := digitsValue whole
  if fraction.isEmpty && exponent.isEmpty && !(negative && value == 0) then
    return (.integer (if negative then -value else value), rest)
  else
    let sign := if negative then ['-'] else []
    return (.decimal (String.ofList (sign ++ whole ++ fraction ++ exponent)), rest)

/-- The token at the front of a text that starts with no blank. -/
def scanOne : List Char → Option (Token × List Char)
  | [] => none
  | '[' :: rest => some (.openBracket, rest)
  | ']' :: rest => some (.closeBracket, rest)
  | '\x7b' :: rest => some (.openBrace, rest)
  | '\x7d' :: rest => some (.closeBrace, rest)
  | ',' :: rest => some (.comma, rest)
  | ':' :: rest => some (.colon, rest)
  | '"' :: rest => (scanText {} rest).map fun (content, rest) => (.text content, rest)
  | 'n' :: 'u' :: 'l' :: 'l' :: rest => some (.scalar .null, rest)
  | 't' :: 'r' :: 'u' :: 'e' :: rest => some (.scalar (.bool true), rest)
  | 'f' :: 'a' :: 'l' :: 's' :: 'e' :: rest => some (.scalar (.bool false), rest)
  | '-' :: rest => (scanNumber true rest).map fun (value, rest) => (.scalar value, rest)
  | chars => (scanNumber false chars).map fun (value, rest) => (.scalar value, rest)

/-- All tokens of a text of at most `bound` characters, in reverse, before `scanned`. -/
def scanAll : (bound : Nat) → List Token → List Char → Option (List Token)
  | 0, _, _ => none
  | bound + 1, scanned, chars =>
    match chars.dropWhile isBlank with
    | [] => some scanned
    | rest =>
      match scanOne rest with
      | none => none
      | some (token, rest) => scanAll bound (token :: scanned) rest

/-- The tokens of a text. -/
def scan (chars : List Char) : Option (List Token) :=
  (scanAll (chars.length + 1) [] chars).map List.reverse

end Token

end ObjectFlow.Json
