/-!
# The characters of a text

A scanner needs to know where a character stands: at which line and column, and after how
many bytes.  All ends of lines but two are written as a line feed.
-/

namespace ObjectFlow.Yaml

/-- A character with its place in the text. -/
structure Mark where
  char : Char
  /-- The number of bytes before it. -/
  offset : Nat
  line : Nat
  column : Nat
  deriving DecidableEq, Repr

def isBlank (c : Char) : Bool := c = ' ' || c = '\t'

/-- Line breaks; all but the last two are written as a line feed. -/
def isBreak (c : Char) : Bool := c = '\n' || c = '\u2028' || c = '\u2029'

/-- The characters that a text may hold. -/
def isAllowed (c : Char) : Bool :=
  let code := c.toNat
  code = 0x09 || code = 0x0a || code = 0x0d || (0x20 ≤ code && code ≤ 0x7e) || code = 0x85 ||
    (0xa0 ≤ code && code ≤ 0xfffd) || 0x10000 ≤ code

/-- The characters of a text with their places; line ends become line feeds. -/
def marksFrom (offset line column : Nat) : List Char → List Mark
  | [] => []
  | '\r' :: '\n' :: cs => ⟨'\n', offset, line, column⟩ :: marksFrom (offset + 2) (line + 1) 0 cs
  | c :: cs =>
    let next := offset + c.utf8Size
    let c := if c = '\r' ∨ c = '\u0085' then '\n' else c
    ⟨c, offset, line, column⟩ ::
      if isBreak c then marksFrom next (line + 1) 0 cs else marksFrom next line (column + 1) cs

/-- The characters of a text with their places, if it may hold them. -/
def marks? (text : String) : Option (List Mark) :=
  if text.toList.all isAllowed then some (marksFrom 0 0 0 text.toList) else none

/-- At a blank, a line break or the end. -/
def atBlank : List Mark → Bool
  | [] => true
  | mark :: _ => isBlank mark.char || isBreak mark.char

/-- At three times the given character, alone at the start of a line. -/
def atRule (c : Char) : List Mark → Bool
  | first :: second :: third :: rest =>
    first.column = 0 && first.char = c && second.char = c && third.char = c && atBlank rest
  | _ => false

/-- At the start or the end of a document. -/
def atDocument (marks : List Mark) : Bool := atRule '-' marks || atRule '.' marks

def skipBlanks (marks : List Mark) : List Mark := marks.dropWhile (isBlank ·.char)

/-- What follows the line, of which only blanks and a comment may be left. -/
def skipLine? (marks : List Mark) : Option (List Mark) :=
  let marks := skipBlanks marks
  let marks :=
    if marks.head?.any (·.char = '#') then marks.dropWhile (!isBreak ·.char) else marks
  match marks with
  | [] => some []
  | mark :: rest => if isBreak mark.char then some rest else none

/-- The character of a code point. -/
def charOf? (code : Nat) : Option Char :=
  if h : code.isValidChar then some (Char.ofNatAux code h) else none

end ObjectFlow.Yaml
