import ObjectFlow.Yaml.Node
import ObjectFlow.Yaml.Token

/-!
# Reading YAML

The grammar of tokens.  A missing key or value is null.  A text holds at most one
document; a text without any document stands for null.
-/

namespace ObjectFlow.Yaml

/-- A node and the tokens after it. -/
abbrev Parsed := Option (Node × List Token)

/-- A node that is missing. -/
def Node.missing : Node := .scalar none .null

/-- Whether the next token is one of the given ones, or there is none. -/
def atAny (tokens : List Token) (ends : List Token) : Bool :=
  match tokens with
  | [] => true
  | token :: _ => ends.contains token

/-- The tokens after a comma, which has to be there. -/
def afterComma : List Token → Option (List Token)
  | .flowEntry :: rest => some rest
  | _ => none

/-- What stands before a node: an anchor, a tag or both. -/
def propertiesOf : List Token → Properties × List Token
  | .anchor number :: .tag tag :: rest => (⟨number, tag⟩, rest)
  | .tag tag :: .anchor number :: rest => (⟨number, tag⟩, rest)
  | .anchor number :: rest => (⟨number, none⟩, rest)
  | .tag tag :: rest => (⟨none, tag⟩, rest)
  | tokens => ({}, tokens)

/-- A scalar with its properties. -/
def scalar? (properties : Properties) (plain : Bool) (content : String) : Option Node :=
  (ofScalar? properties.tag plain content).map (.scalar properties.anchor)

/-- A node of which only the properties are there. -/
def bareNode? (properties : Properties) : Option Node :=
  if properties.isEmpty then none else scalar? properties true ""

mutual

/-- A node.  `block` allows collections by indentation; `compact` allows a sequence
whose dashes have the indentation of the mapping around it.  `depth` collections may
still be opened. -/
def parseNode (bound depth : Nat) (block compact : Bool) (tokens : List Token) : Parsed :=
  match bound, tokens with
  | 0, _ => none
  | _ + 1, .reference number :: rest => some (.reference number, rest)
  | bound + 1, tokens =>
    let (properties, rest) := propertiesOf tokens
    parseContent bound depth block compact properties rest

/-- What follows the properties of a node. -/
def parseContent (bound depth : Nat) (block compact : Bool) (properties : Properties)
    (tokens : List Token) : Parsed :=
  match bound, tokens with
  | 0, _ => none
  | _ + 1, .plain content :: rest => (scalar? properties true content).map (·, rest)
  | _ + 1, .quoted content :: rest => (scalar? properties false content).map (·, rest)
  | bound + 1, tokens =>
    match depth, block, compact, tokens with
    | depth + 1, _, _, .flowSequenceStart :: rest =>
      parseFlowSequence bound depth properties true [] rest
    | depth + 1, _, _, .flowMappingStart :: rest =>
      parseFlowMapping bound depth properties true [] rest
    | depth + 1, true, _, .blockSequenceStart :: rest =>
      parseBlockSequence bound depth properties [] rest
    | depth + 1, true, _, .blockMappingStart :: rest =>
      parseBlockMapping bound depth properties [] rest
    | depth + 1, _, true, .blockEntry :: rest =>
      parseCompactSequence bound depth properties [] (.blockEntry :: rest)
    | _, _, _, tokens => (bareNode? properties).map (·, tokens)

/-- A node, which is missing where one of the given tokens follows. -/
def parseOrNull (bound depth : Nat) (block compact : Bool) (ends tokens : List Token) : Parsed :=
  match bound with
  | 0 => none
  | bound + 1 =>
    if atAny tokens ends then some (.missing, tokens)
    else parseNode bound depth block compact tokens

/-- The value after a key. -/
def parseValue (bound depth : Nat) (block compact : Bool) (ends tokens : List Token) : Parsed :=
  match bound, tokens with
  | bound + 1, .value :: rest => parseOrNull bound depth block compact ends rest
  | _, tokens => some (.missing, tokens)

/-- The rest of a sequence by indentation; `items` are in reverse order. -/
def parseBlockSequence (bound depth : Nat) (properties : Properties) (items : List Node)
    (tokens : List Token) : Parsed :=
  match bound, tokens with
  | bound + 1, .blockEntry :: rest => do
    let (item, rest) ← parseOrNull bound depth true false [.blockEntry, .blockEnd] rest
    parseBlockSequence bound depth properties (item :: items) rest
  | _ + 1, .blockEnd :: rest => some (.sequence properties items.reverse, rest)
  | _, _ => none

/-- The rest of a sequence without indentation of its own. -/
def parseCompactSequence (bound depth : Nat) (properties : Properties) (items : List Node)
    (tokens : List Token) : Parsed :=
  match bound, tokens with
  | bound + 1, .blockEntry :: rest => do
    let (item, rest) ←
      parseOrNull bound depth true false [.blockEntry, .key, .value, .blockEnd] rest
    parseCompactSequence bound depth properties (item :: items) rest
  | _, tokens => some (.sequence properties items.reverse, tokens)

/-- The rest of a mapping by indentation; `entries` are in reverse order. -/
def parseBlockMapping (bound depth : Nat) (properties : Properties)
    (entries : List (Node × Node)) (tokens : List Token) : Parsed :=
  match bound, tokens with
  | bound + 1, .key :: rest => do
    let (key, rest) ← parseOrNull bound depth true true [.key, .value, .blockEnd] rest
    let (value, rest) ← parseValue bound depth true true [.key, .value, .blockEnd] rest
    parseBlockMapping bound depth properties ((key, value) :: entries) rest
  | _ + 1, .blockEnd :: rest => some (.mapping properties entries.reverse, rest)
  | _, _ => none

/-- The rest of a sequence in brackets.  An entry with a key is a mapping of its own. -/
def parseFlowSequence (bound depth : Nat) (properties : Properties) (first : Bool)
    (items : List Node) (tokens : List Token) : Parsed :=
  match bound, tokens with
  | _ + 1, .flowSequenceEnd :: rest => some (.sequence properties items.reverse, rest)
  | bound + 1, tokens => do
    let tokens ← if first then some tokens else afterComma tokens
    match tokens with
    | .flowSequenceEnd :: rest => some (.sequence properties items.reverse, rest)
    | .key :: rest =>
      let (item, rest) ← parsePair bound depth rest
      parseFlowSequence bound depth properties false (item :: items) rest
    | tokens =>
      let (item, rest) ← parseNode bound depth false false tokens
      parseFlowSequence bound depth properties false (item :: items) rest
  | 0, _ => none

/-- A mapping with one entry, after the mark of its key.  Where the key is missing, the
token in its place does not count. -/
def parsePair (bound depth : Nat) (tokens : List Token) : Parsed :=
  match bound, depth with
  | bound + 1, depth + 1 => do
    let (key, rest) ←
      if atAny tokens [.value, .flowEntry, .flowSequenceEnd] then some (.missing, tokens.tail)
      else parseNode bound depth false false tokens
    let (value, rest) ← parseValue bound depth false false [.flowEntry, .flowSequenceEnd] rest
    return (.mapping {} [(key, value)], rest)
  | _, _ => none

/-- The rest of a mapping in braces.  A key may stand without a value. -/
def parseFlowMapping (bound depth : Nat) (properties : Properties) (first : Bool)
    (entries : List (Node × Node)) (tokens : List Token) : Parsed :=
  match bound, tokens with
  | _ + 1, .flowMappingEnd :: rest => some (.mapping properties entries.reverse, rest)
  | bound + 1, tokens => do
    let tokens ← if first then some tokens else afterComma tokens
    match tokens with
    | .flowMappingEnd :: rest => some (.mapping properties entries.reverse, rest)
    | .key :: rest =>
      let (key, rest) ←
        parseOrNull bound depth false false [.value, .flowEntry, .flowMappingEnd] rest
      let (value, rest) ← parseValue bound depth false false [.flowEntry, .flowMappingEnd] rest
      parseFlowMapping bound depth properties false ((key, value) :: entries) rest
    | tokens =>
      let (key, rest) ← parseNode bound depth false false tokens
      parseFlowMapping bound depth properties false ((key, .missing) :: entries) rest
  | 0, _ => none

end

/-- The node of a document, for which all that is left may be ends of the document. -/
def parseDocument (bound : Nat) : List Token → Option Node
  | [] => some .missing
  | .directive :: rest =>
    match rest.dropWhile (· == .directive) with
    | .documentStart :: rest => parseMarked bound rest
    | _ => none
  | .documentStart :: rest => parseMarked bound rest
  | tokens => parseNode bound maxDepth true false tokens >>= only
where
  /-- A document after the mark of its start. -/
  parseMarked (bound : Nat) (tokens : List Token) : Option Node :=
    parseOrNull bound maxDepth true false [.directive, .documentStart, .documentEnd] tokens >>= only
  /-- The node, if only ends of the document follow. -/
  only : Node × List Token → Option Node
    | (node, rest) => if rest.all (· == .documentEnd) then some node else none

/-- The value that a text holds.  Every step of the parser takes a token or opens a
collection, so that the number of tokens bounds the number of nested steps. -/
def parse? (text : String) : Option Yaml := do
  let tokens ← tokenize? text
  (← parseDocument (4 * tokens.length + 8) tokens).value?

end ObjectFlow.Yaml
