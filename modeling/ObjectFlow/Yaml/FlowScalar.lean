import ObjectFlow.Digit
import ObjectFlow.Yaml.Mark

/-!
# Scalars within lines

A scalar without quotes, in single quotes or in double quotes may go on over several
lines.  A single line break inside of it counts as a space, and of several the first one
is left out; blanks around line breaks do not count.
-/

namespace ObjectFlow.Yaml

/-- What separates two characters of a scalar. -/
inductive Gap where
  /-- Blanks within a line, the last one first. -/
  | blanks (chars : List Char)
  /-- Line breaks, the last one first; the first break is absent when it was escaped. -/
  | breaks (first : Option Char) (more : List Char)

namespace Gap

def none : Gap := blanks []

def isNone : Gap → Bool
  | blanks [] => true
  | _ => false

def hasBreak : Gap → Bool
  | blanks _ => false
  | breaks _ _ => true

/-- One more blank; blanks at the start of a line do not count. -/
def addBlank (c : Char) : Gap → Gap
  | blanks chars => blanks (c :: chars)
  | breaks first more => breaks first more

/-- One more line break; blanks before it do not count. -/
def addBreak (c : Char) : Gap → Gap
  | blanks _ => breaks (some c) []
  | breaks first more => breaks first (c :: more)

/-- What the gap contributes, the last character first.  A single line feed becomes a
space, and the first of several is left out. -/
def content : Gap → List Char
  | blanks chars => chars
  | breaks (some '\n') [] => [' ']
  | breaks (some '\n') more => more
  | breaks (some c) more => more ++ [c]
  | breaks Option.none more => more

end Gap

/-- A scalar that was read, and what follows it. -/
structure Scanned where
  content : String
  /-- The scalar was followed by a line break. -/
  brokeLine : Bool
  rest : List Mark

/-- The characters that end a plain scalar inside of brackets. -/
def isFlowIndicator (c : Char) : Bool := c = ',' || c = '[' || c = ']' || c = '\x7b' || c = '\x7d'

/-- Reads a plain scalar.  `done` is what was read, the last character first.  Outside
of brackets the scalar ends before a line that starts left of the margin. -/
def scanPlain (flow : Bool) (margin : Nat) (done : List Char) (gap : Gap) :
    List Mark → Option Scanned
  | [] => some ⟨String.ofList done.reverse, gap.hasBreak, []⟩
  | mark :: rest =>
    let c := mark.char
    let stop := some ⟨String.ofList done.reverse, gap.hasBreak, mark :: rest⟩
    if isBlank c then
      if c = '\t' ∧ gap.hasBreak ∧ mark.column < margin then none
      else scanPlain flow margin done (gap.addBlank c) rest
    else if isBreak c then scanPlain flow margin done (gap.addBreak c) rest
    else if !gap.isNone &&
        ((!flow && mark.column < margin) || c = '#' || atDocument (mark :: rest)) then stop
    else if flow && c = ':' &&
        rest.head?.any (fun next => next.char = '?' || isFlowIndicator next.char) then none
    else if (c = ':' && atBlank rest) || (flow && isFlowIndicator c) then stop
    else scanPlain flow margin (c :: (gap.content ++ done)) .none rest

/-- Reads a scalar in single quotes after its first quote.  A quote inside is written
twice; `quote` says that the last character was one. -/
def scanSingle (done : List Char) (gap : Gap) (quote : Bool) : List Mark → Option Scanned
  | [] => if quote then some ⟨String.ofList done.reverse, false, []⟩ else none
  | mark :: rest =>
    let c := mark.char
    if quote then
      if c = '\'' then scanSingle ('\'' :: done) .none false rest
      else some ⟨String.ofList done.reverse, false, mark :: rest⟩
    else if isBlank c then scanSingle done (gap.addBlank c) false rest
    else if isBreak c then scanSingle done (gap.addBreak c) false rest
    else if atDocument (mark :: rest) then none
    else if c = '\'' then scanSingle (gap.content ++ done) .none true rest
    else scanSingle (c :: (gap.content ++ done)) .none false rest

/-- How far an escape was read. -/
inductive Escape where
  | none
  /-- After the backslash. -/
  | started
  /-- Before the last `left` hexadecimal digits of a code point. -/
  | code (left value : Nat)

/-- The characters that stand for another one after a backslash. -/
def escapes : List (Char × Char) :=
  [('0', '\x00'), ('a', '\x07'), ('b', '\x08'), ('t', '\t'), ('\t', '\t'), ('n', '\n'),
    ('v', '\x0b'), ('f', '\x0c'), ('r', '\r'), ('e', '\x1b'), (' ', ' '), ('"', '"'), ('/', '/'),
    ('\\', '\\'), ('N', '\u0085'), ('_', '\u00a0'), ('L', '\u2028'), ('P', '\u2029')]

/-- The number of digits of a code point after a backslash and a letter. -/
def codeLength? : Char → Option Nat
  | 'x' => some 2
  | 'u' => some 4
  | 'U' => some 8
  | _ => none

/-- Reads a scalar in double quotes after its first quote. -/
def scanDouble (done : List Char) (gap : Gap) (escape : Escape) : List Mark → Option Scanned
  | [] => none
  | mark :: rest =>
    let c := mark.char
    match escape with
    | .started =>
      if isBreak c then scanDouble done (.breaks none []) .none rest
      else
        match codeLength? c, escapes.lookup c with
        | some length, _ => scanDouble done .none (.code length 0) rest
        | none, some meant => scanDouble (meant :: done) .none .none rest
        | none, none => none
    | .code left value =>
      match Digit.value? 16 c with
      | none => none
      | some digit =>
        let value := value * 16 + digit
        if left ≤ 1 then
          match charOf? value with
          | some meant => scanDouble (meant :: done) .none .none rest
          | none => none
        else scanDouble done .none (.code (left - 1) value) rest
    | .none =>
      if isBlank c then scanDouble done (gap.addBlank c) .none rest
      else if isBreak c then scanDouble done (gap.addBreak c) .none rest
      else if atDocument (mark :: rest) then none
      else if c = '"' then some ⟨String.ofList (gap.content ++ done).reverse, false, rest⟩
      else if c = '\\' then scanDouble (gap.content ++ done) .none .started rest
      else scanDouble (c :: (gap.content ++ done)) .none .none rest

end ObjectFlow.Yaml
