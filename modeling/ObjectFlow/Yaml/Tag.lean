import ObjectFlow.Digit
import ObjectFlow.Yaml.Mark

/-!
# Tags

A tag says what kind of value a node is.  It is written in full between angle brackets,
or as a handle, which a directive may define, with a suffix.  Characters may be written
as percent signs with the octets of their UTF-8 form; a tag with octets that form no
character cannot be read as a name.
-/

namespace ObjectFlow.Yaml

inductive Tag where
  /-- A name after an exclamation mark; the mark alone is a name too. -/
  | named (name : String)
  /-- The same, where the name is no text. -/
  | unreadable
  | null
  | bool
  | integer
  | real
  /-- Any other tag: a scalar with it is a text. -/
  | other
  deriving DecidableEq, Repr

/-- What is written of a tag: its characters, or nothing for octets that form none. -/
abbrev Uri := List (Option Char)

/-- The characters of handles, anchors and directives. -/
def isWord (c : Char) : Bool := c.isAlphanum || c = '_' || c = '-'

/-- The characters of a tag. -/
def isUri (c : Char) : Bool := isWord c || ";/?:@&=+$.%!~*'()".toList.contains c

/-- The characters of a tag that is written in full. -/
def isFullUri (c : Char) : Bool := isUri c || c = ',' || c = '[' || c = ']'

/-- The number of octets of a character, from its first octet. -/
def octetCount? (octet : Nat) : Option Nat :=
  if octet < 0x80 then some 1
  else if 0xc0 ≤ octet ∧ octet < 0xe0 then some 2
  else if 0xe0 ≤ octet ∧ octet < 0xf0 then some 3
  else if 0xf0 ≤ octet ∧ octet < 0xf8 then some 4
  else none

/-- The character of some octets, which has to need as many of them. -/
def charOfOctets? : List Nat → Option Char
  | [a] => charOf? a
  | [a, b] => (charOf? (a % 32 * 64 + b % 64)).filter (0x80 ≤ ·.toNat)
  | [a, b, c] => (charOf? ((a % 16 * 64 + b % 64) * 64 + c % 64)).filter (0x800 ≤ ·.toNat)
  | [a, b, c, d] =>
    (charOf? (((a % 8 * 64 + b % 64) * 64 + c % 64) * 64 + d % 64)).filter (0x10000 ≤ ·.toNat)
  | _ => none

/-- Reads the octets after percent signs.  Of the character that was begun, `octets` are
known and `left` octets have to follow. -/
def decodeUri (left : Nat) (octets : List Nat) : List Char → Option Uri
  | [] => if left = 0 then some [] else none
  | '%' :: high :: low :: rest => do
    let octet := (← Digit.value? 16 high) * 16 + (← Digit.value? 16 low)
    let left ←
      if left = 0 then (octetCount? octet).map (· - 1)
      else if octet / 64 = 2 then some (left - 1)
      else none
    let octets := octets ++ [octet]
    if left = 0 then return charOfOctets? octets :: (← decodeUri 0 [] rest)
    else decodeUri left octets rest
  | c :: rest =>
    if c = '%' ∨ left ≠ 0 then none else do return some c :: (← decodeUri 0 [] rest)

/-- What is written of a tag, up to a zero. -/
def uri? (written : List Char) : Option Uri :=
  (decodeUri 0 [] written).map (·.takeWhile (· ≠ some '\x00'))

/-- The name of a tag after its exclamation mark.  One more mark in front of a name does
not count, and the mark alone is its own name. -/
def nameOf : List Char → String
  | [] => "!"
  | '!' :: c :: rest => String.ofList (c :: rest)
  | name => String.ofList name

/-- What the standard handle with two exclamation marks stands for. -/
def standardUri : Uri := "tag:yaml.org,2002:".toList.map some

def Tag.ofUri (uri : Uri) : Tag :=
  match uri with
  | some '!' :: rest =>
    match rest.mapM id with
    | some name => .named (nameOf name)
    | none => .unreadable
  | uri =>
    if uri = standardUri ++ "null".toList.map some then .null
    else if uri = standardUri ++ "bool".toList.map some then .bool
    else if uri = standardUri ++ "int".toList.map some then .integer
    else if uri = standardUri ++ "float".toList.map some then .real
    else .other

/-- What handles stand for. -/
abbrev Handles := List (List Char × Uri)

/-- The handles that need no directive. -/
def Handles.standard : Handles := [(['!'], [some '!']), (['!', '!'], standardUri)]

/-- The characters of a row that satisfy a condition, and what follows them. -/
def spanChars (condition : Char → Bool) (marks : List Mark) : List Char × List Mark :=
  ((marks.takeWhile (condition ·.char)).map (·.char), marks.dropWhile (condition ·.char))

/-- The tag of a handle and a suffix. -/
def Handles.tag? (handles : Handles) (handle written : List Char) : Option Tag := do
  return .ofUri ((← (handles ++ standard).lookup handle) ++ (← uri? written))

/-- Reads a tag after its exclamation mark. -/
def scanTag (handles : Handles) : List Mark → Option (Tag × List Mark)
  | [] => some (.named "!", [])
  | mark :: rest =>
    if mark.char = '<' then
      let (written, rest) := spanChars isFullUri rest
      match written, rest with
      | _ :: _, close :: rest =>
        if close.char = '>' then (uri? written).map fun uri => (.ofUri uri, rest) else none
      | _, _ => none
    else
      let (word, after) := spanChars isWord (mark :: rest)
      let (written, rest) := spanChars isUri (mark :: rest)
      match after with
      | ⟨'!', _, _, _⟩ :: after =>
        let (written, rest) := spanChars isUri after
        if written.isEmpty then none
        else (handles.tag? ('!' :: word ++ ['!']) written).map (·, rest)
      | _ =>
        match uri? written with
        | none => none
        | some [] => some (.named "!", rest)
        | some _ => (handles.tag? ['!'] written).map (·, rest)

/-! ### Directives -/

inductive Directive where
  | version (major minor : Nat)
  | handle (handle : List Char) (uri : Uri)
  deriving DecidableEq, Repr

/-- A number of at most nine digits. -/
def scanNumber (marks : List Mark) : Option (Nat × List Mark) :=
  let (digits, rest) := spanChars Char.isDigit marks
  if 9 < digits.length then none else (Digit.number? 10 digits).map (·, rest)

def scanVersion (marks : List Mark) : Option (Directive × List Mark) := do
  let (major, rest) ← scanNumber (skipBlanks marks)
  match rest with
  | ⟨'.', _, _, _⟩ :: rest =>
    let (minor, rest) ← scanNumber rest
    return (.version major minor, rest)
  | _ => none

/-- A handle: an exclamation mark alone, or a word between two. -/
def scanHandle : List Mark → Option (List Char × List Mark)
  | ⟨'!', _, _, _⟩ :: rest =>
    match spanChars isWord rest with
    | (word, ⟨'!', _, _, _⟩ :: rest) => some ('!' :: word ++ ['!'], rest)
    | ([], rest) => some (['!'], rest)
    | _ => none
  | _ => none

def scanHandleDefinition (marks : List Mark) : Option (Directive × List Mark) := do
  let (handle, rest) ← scanHandle (skipBlanks marks)
  if !rest.head?.any (isBlank ·.char) then none
  else
    let (written, rest) := spanChars isFullUri (skipBlanks rest)
    if written.isEmpty || !atBlank rest then none
    else return (.handle handle (← uri? written), rest)

/-- Reads a directive after its percent sign, with the rest of its line. -/
def scanDirective (marks : List Mark) : Option (Directive × List Mark) := do
  let (name, rest) := spanChars isWord marks
  if !atBlank rest then none
  else
    let (directive, rest) ←
      match String.ofList name with
      | "YAML" => scanVersion rest
      | "TAG" => scanHandleDefinition rest
      | _ => none
    return (directive, ← skipLine? rest)

end ObjectFlow.Yaml
