import ObjectFlow.Table
import ObjectFlow.Yaml.BlockScalar
import ObjectFlow.Yaml.FlowScalar
import ObjectFlow.Yaml.Tag

/-!
# YAML tokens

The scanner cuts a text into tokens.  Indentation becomes tokens of its own: where a
line starts further to the right than the block around it, a block starts, and where a
line starts further to the left, blocks end.

Whether a scalar or a flow collection is a key shows only at the colon after it.  So
the scanner remembers where a key may have started, and puts the tokens that open the
key there when it meets the colon.  Such a key stays on one line and is at most 1024
bytes long.

Tags are read with the handles that directives define.  Anchors are numbered: an anchor
gets the number of different names that were given before it.  A name that is given again
so shares its new number with the next new name.
-/

namespace ObjectFlow.Yaml

inductive Token where
  | directive
  | documentStart
  | documentEnd
  | blockSequenceStart
  | blockMappingStart
  | blockEnd
  | flowSequenceStart
  | flowSequenceEnd
  | flowMappingStart
  | flowMappingEnd
  | blockEntry
  | flowEntry
  | key
  | value
  | anchor (number : Nat)
  /-- An alias. -/
  | reference (number : Nat)
  | tag (tag : Tag)
  /-- A scalar without quotes. -/
  | plain (content : String)
  /-- Any other scalar. -/
  | quoted (content : String)
  deriving DecidableEq, Repr

/-- A place where a key may have started. -/
structure KeyStart where
  /-- The number of tokens before it. -/
  number : Nat
  mark : Mark
  /-- Nothing but a key may stand there. -/
  required : Bool

/-- What the scanner knows about the text so far. -/
structure Scanner where
  tokens : Array Token := #[]
  /-- The columns of the open blocks, the innermost first. -/
  margins : List Nat := []
  /-- Where a key of the innermost brackets may have started. -/
  key : Option KeyStart := none
  /-- The same for the brackets around, the innermost first. -/
  outerKeys : List (Option KeyStart) := []
  /-- A key may start at the next token. -/
  keyAllowed : Bool := true
  /-- The numbers of the anchors. -/
  anchors : Table String Nat := {}
  /-- The handles that directives define. -/
  handles : Handles := []
  /-- A directive says the version. -/
  versioned : Bool := false

namespace Scanner

/-- Inside of brackets. -/
def inFlow (scanner : Scanner) : Bool := !scanner.outerKeys.isEmpty

/-- The first column that belongs to the innermost block. -/
def contentColumn (scanner : Scanner) : Nat :=
  match scanner.margins with
  | [] => 0
  | margin :: _ => margin + 1

def push (scanner : Scanner) (token : Token) : Scanner :=
  { scanner with tokens := scanner.tokens.push token }

/-- Ends blocks while their margin is to be left. -/
def closeWhile (leave : Nat → Bool) (tokens : Array Token) : List Nat → Array Token × List Nat
  | [] => (tokens, [])
  | margin :: margins =>
    if leave margin then closeWhile leave (tokens.push .blockEnd) margins
    else (tokens, margin :: margins)

/-- Ends the blocks to the right of a column. -/
def unroll (scanner : Scanner) (column : Nat) : Scanner :=
  if scanner.inFlow then scanner
  else
    let (tokens, margins) := closeWhile (column < ·) scanner.tokens scanner.margins
    { scanner with tokens, margins }

/-- Ends all blocks. -/
def unrollAll (scanner : Scanner) : Scanner :=
  if scanner.inFlow then scanner
  else
    let (tokens, margins) := closeWhile (fun _ => true) scanner.tokens scanner.margins
    { scanner with tokens, margins }

/-- Starts a block at a column, with its token at a position, unless there is one. -/
def roll (scanner : Scanner) (column position : Nat) (token : Token) : Scanner :=
  if scanner.inFlow ∨ column < scanner.contentColumn then scanner
  else { scanner with
         margins := column :: scanner.margins
         tokens := scanner.tokens.insertIdxIfInBounds position token }

/-- Gives up the key that may have started. -/
def dropKey (scanner : Scanner) : Option Scanner :=
  if scanner.key.any KeyStart.required then none else some { scanner with key := none }

/-- Notes that a key may start here. -/
def saveKey (scanner : Scanner) (mark : Mark) : Option Scanner :=
  if scanner.keyAllowed then do
    let required := !scanner.inFlow && scanner.margins.head? == some mark.column
    let scanner ← scanner.dropKey
    return { scanner with key := some { number := scanner.tokens.size, mark, required } }
  else some scanner

def openFlow (scanner : Scanner) (mark : Mark) (token : Token) : Option Scanner := do
  let scanner ← scanner.saveKey mark
  return { scanner with
    outerKeys := scanner.key :: scanner.outerKeys, key := none, keyAllowed := true }.push token

def closeFlow (scanner : Scanner) (token : Token) : Option Scanner := do
  let scanner ← scanner.dropKey
  let scanner :=
    match scanner.outerKeys with
    | [] => scanner
    | key :: outerKeys => { scanner with key, outerKeys }
  return { scanner with keyAllowed := false }.push token

def flowEntry (scanner : Scanner) : Option Scanner := do
  return { ← scanner.dropKey with keyAllowed := true }.push .flowEntry

/-- A dash. -/
def blockEntry (scanner : Scanner) (mark : Mark) : Option Scanner := do
  if !scanner.inFlow && !scanner.keyAllowed then none
  else
    let scanner := scanner.roll mark.column scanner.tokens.size .blockSequenceStart
    return { ← scanner.dropKey with keyAllowed := true }.push .blockEntry

/-- A question mark. -/
def explicitKey (scanner : Scanner) (mark : Mark) : Option Scanner := do
  if !scanner.inFlow && !scanner.keyAllowed then none
  else
    let scanner := scanner.roll mark.column scanner.tokens.size .blockMappingStart
    return { ← scanner.dropKey with keyAllowed := !scanner.inFlow }.push .key

/-- A colon after a key that started before. -/
def valueOf (scanner : Scanner) (start : KeyStart) : Scanner :=
  let scanner := { scanner with
    tokens := scanner.tokens.insertIdxIfInBounds start.number .key, key := none,
    keyAllowed := false }
  (scanner.roll start.mark.column start.number .blockMappingStart).push .value

/-- A colon after an explicit key. -/
def explicitValue (scanner : Scanner) (mark : Mark) : Option Scanner :=
  if !scanner.inFlow && !scanner.keyAllowed then none
  else
    let scanner := scanner.roll mark.column scanner.tokens.size .blockMappingStart
    some ({ scanner with keyAllowed := !scanner.inFlow }.push .value)

/-- A colon. -/
def value (scanner : Scanner) (mark : Mark) : Option Scanner :=
  match scanner.key with
  | none => scanner.explicitValue mark
  | some start =>
    if start.mark.line = mark.line ∧ mark.offset ≤ start.mark.offset + 1024 then
      some (scanner.valueOf start)
    else do (← scanner.dropKey).explicitValue mark

/-- The start or the end of a document. -/
def documentRule (scanner : Scanner) (token : Token) : Option Scanner := do
  return { ← scanner.unrollAll.dropKey with keyAllowed := false }.push token

/-- What a directive says.  Versions 1.1 and 1.2 are known; nothing is said twice. -/
def direct (scanner : Scanner) : Directive → Option Scanner
  | .version major minor =>
    if scanner.versioned ∨ major ≠ 1 ∨ (minor ≠ 1 ∧ minor ≠ 2) then none
    else some { scanner with versioned := true }
  | .handle handle uri =>
    if (scanner.handles.lookup handle).isSome then none
    else some { scanner with handles := (handle, uri) :: scanner.handles }

/-- A percent sign at the start of a line. -/
def directive (scanner : Scanner) (rest : List Mark) : Option (Scanner × List Mark) := do
  let (directive, rest) ← scanDirective rest
  let scanner ← scanner.documentRule .directive
  return (← scanner.direct directive, rest)

/-- The word of an anchor or an alias, and what follows it. -/
def scanName (marks : List Mark) : Option (String × List Mark) :=
  let (word, rest) := spanChars isWord marks
  if word.isEmpty ||
      !(atBlank rest || rest.head?.any fun mark => "?:,]\x7d%@\x60".toList.contains mark.char) then
    none
  else some (String.ofList word, rest)

/-- An ampersand. -/
def anchor (scanner : Scanner) (rest : List Mark) : Option (Scanner × List Mark) := do
  let (name, rest) ← scanName rest
  let number := scanner.anchors.size
  return ({ scanner with anchors := scanner.anchors.set name number }.push (.anchor number), rest)

/-- An asterisk, before a name that was given. -/
def reference (scanner : Scanner) (rest : List Mark) : Option (Scanner × List Mark) := do
  let (name, rest) ← scanName rest
  return (scanner.push (.reference (← scanner.anchors.get? name)), rest)

/-- An exclamation mark.  A blank ends the tag, or a comma inside of brackets. -/
def tag (scanner : Scanner) (rest : List Mark) : Option (Scanner × List Mark) := do
  let (tag, rest) ← scanTag scanner.handles rest
  if atBlank rest || (scanner.inFlow && rest.head?.any (·.char = ',')) then
    return (scanner.push (.tag tag), rest)
  else none

/-- A scalar of whole lines.  A key may follow it. -/
def blockScalar (scanner : Scanner) (literal : Bool) (rest : List Mark) :
    Option (Scanner × List Mark) := do
  let scanner ← scanner.dropKey
  let (content, rest) ← scanBlockScalar literal scanner.margins.head? rest
  return ({ scanner with keyAllowed := true }.push (.quoted content), rest)

/-- The end of the text. -/
def finish (scanner : Scanner) : Option (Array Token) := do
  return (← scanner.unrollAll.dropKey).tokens

/-- Whether a plain scalar may start with a character that another one follows. -/
def startsPlain (inFlow : Bool) (c : Char) (rest : List Mark) : Bool :=
  !"-?:,[]\x7b\x7d#&*!|>'\"%@\x60".toList.contains c && !isBlank c && !isBreak c ||
    (c = '-' && !atBlank rest) || (!inFlow && (c = '?' || c = ':') && !atBlank rest)

/-- Reads the token that starts at a character. -/
def next (scanner : Scanner) (mark : Mark) (rest : List Mark) :
    Option (Scanner × List Mark) := do
  let scanner := scanner.unroll mark.column
  let c := mark.char
  let opens := scanner.inFlow || atBlank rest
  if mark.column = 0 ∧ c = '%' then scanner.directive rest
  else if atRule '-' (mark :: rest) then
    return (← scanner.documentRule .documentStart, rest.drop 2)
  else if atRule '.' (mark :: rest) then
    return (← scanner.documentRule .documentEnd, rest.drop 2)
  else if c = '[' then return (← scanner.openFlow mark .flowSequenceStart, rest)
  else if c = '\x7b' then return (← scanner.openFlow mark .flowMappingStart, rest)
  else if c = ']' then return (← scanner.closeFlow .flowSequenceEnd, rest)
  else if c = '\x7d' then return (← scanner.closeFlow .flowMappingEnd, rest)
  else if c = ',' then return (← scanner.flowEntry, rest)
  else if c = '-' ∧ atBlank rest then return (← scanner.blockEntry mark, rest)
  else if c = '?' ∧ opens then return (← scanner.explicitKey mark, rest)
  else if c = ':' ∧ opens then return (← scanner.value mark, rest)
  else if c = '|' ∧ !scanner.inFlow then scanner.blockScalar true rest
  else if c = '>' ∧ !scanner.inFlow then scanner.blockScalar false rest
  else
    let plain := startsPlain scanner.inFlow c rest
    let margin := scanner.contentColumn
    let scanner := { ← scanner.saveKey mark with keyAllowed := false }
    if c = '&' then scanner.anchor rest
    else if c = '*' then scanner.reference rest
    else if c = '!' then scanner.tag rest
    else if c = '\'' then
      let scanned ← scanSingle [] .none false rest
      return (scanner.push (.quoted scanned.content), scanned.rest)
    else if c = '"' then
      let scanned ← scanDouble [] .none .none rest
      return (scanner.push (.quoted scanned.content), scanned.rest)
    else if plain then
      let scanned ← scanPlain scanner.inFlow margin [] .none (mark :: rest)
      return ({ scanner with keyAllowed := scanned.brokeLine }.push (.plain scanned.content),
        scanned.rest)
    else none

/-- Skips blanks, comments and line breaks, and a mark of the byte order at the start of a
line.  After a line break a key may start, except inside of brackets.  Where a key may
start, a tab is not skipped. -/
def skipToToken (inFlow keyAllowed comment : Bool) : List Mark → Bool × List Mark
  | [] => (keyAllowed, [])
  | mark :: rest =>
    let c := mark.char
    if isBreak c then skipToToken inFlow (keyAllowed || !inFlow) false rest
    else if comment then skipToToken inFlow keyAllowed true rest
    else if c = ' ' || (c = '\t' && (inFlow || !keyAllowed)) ||
        (c = '\uFEFF' && mark.column = 0) then
      skipToToken inFlow keyAllowed false rest
    else if c = '#' then skipToToken inFlow keyAllowed true rest
    else (keyAllowed, mark :: rest)

/-- Reads all tokens.  A token takes at least one character, so that the number of
characters bounds the number of tokens. -/
def run (scanner : Scanner) : (bound : Nat) → List Mark → Option (Array Token)
  | bound, marks =>
    let (keyAllowed, marks) := skipToToken scanner.inFlow scanner.keyAllowed false marks
    let scanner := { scanner with keyAllowed }
    match marks, bound with
    | [], _ => scanner.finish
    | _ :: _, 0 => none
    | mark :: rest, bound + 1 => do
      let (scanner, rest) ← scanner.next mark rest
      scanner.run bound rest

end Scanner

/-- The tokens of a text. -/
def tokenize? (text : String) : Option (List Token) := do
  let marks ← marks? text
  return (← Scanner.run {} marks.length marks).toList

end ObjectFlow.Yaml
