import ObjectFlow.Json.Basic

/-!
# Writing JSON text

`compress` writes a value without blanks, `pretty` with one item a line and two
spaces for each level.  A text escapes the quote, the backslash and the control
characters, and writes every other character as it is.
-/

namespace ObjectFlow.Json

/-- A hexadecimal digit, in lower case. -/
def hexChar (digit : Nat) : Char :=
  if digit < 10 then Char.ofNat ('0'.toNat + digit) else Char.ofNat ('a'.toNat + (digit - 10))

/-- How a character stands inside a text. -/
def escapeChar (c : Char) : List Char :=
  if c == '"' then ['\\', '"']
  else if c == '\\' then ['\\', '\\']
  else if c == '\x08' then ['\\', 'b']
  else if c == '\x0c' then ['\\', 'f']
  else if c == '\n' then ['\\', 'n']
  else if c == '\r' then ['\\', 'r']
  else if c == '\t' then ['\\', 't']
  else if c.toNat < 0x20 then
    ['\\', 'u', '0', '0', hexChar (c.toNat / 16), hexChar (c.toNat % 16)]
  else [c]

/-- A text between quotes.  An absent text is written as the empty one. -/
def quote (content : Option String) : List Char :=
  '"' :: (content.getD "").toList.flatMap escapeChar ++ ['"']

/-- A value that is no container. -/
def scalarChars : Json → List Char
  | .bool true => "true".toList
  | .bool false => "false".toList
  | .integer value => (toString value).toList
  | .decimal literal => literal.toList
  | .text content => quote content
  | _ => "null".toList

/-- A line break and the indentation of a level. -/
def newline (level : Nat) : List Char :=
  '\n' :: List.replicate (2 * level) ' '

/-- How containers are laid out: what stands before an item, before the closing
bracket and after a colon. -/
structure Layout where
  beforeItem : (level : Nat) → List Char
  afterColon : List Char

/-- No blanks at all. -/
def Layout.compact : Layout := ⟨fun _ => [], []⟩

/-- One item a line. -/
def Layout.lines : Layout := ⟨newline, [' ']⟩

mutual

/-- The characters of a value inside `level` containers, before `rest`. -/
def render (layout : Layout) (level : Nat) (json : Json) (rest : List Char) : List Char :=
  match json with
  | .array [] => '[' :: ']' :: rest
  | .array (item :: items) =>
    '[' :: layout.beforeItem (level + 1) ++
      render layout (level + 1) item
        (renderItems layout (level + 1) items (layout.beforeItem level ++ ']' :: rest))
  | .object [] => '\x7b' :: '\x7d' :: rest
  | .object ((key, value) :: members) =>
    '\x7b' :: layout.beforeItem (level + 1) ++ quote key ++ ':' :: layout.afterColon ++
      render layout (level + 1) value
        (renderMembers layout (level + 1) members (layout.beforeItem level ++ '\x7d' :: rest))
  | scalar => scalarChars scalar ++ rest

/-- The items after the first one. -/
def renderItems (layout : Layout) (level : Nat) (items : List Json) (rest : List Char) :
    List Char :=
  match items with
  | [] => rest
  | item :: items =>
    ',' :: layout.beforeItem level ++
      render layout level item (renderItems layout level items rest)

/-- The members after the first one. -/
def renderMembers (layout : Layout) (level : Nat) (members : List (Option String × Json))
    (rest : List Char) : List Char :=
  match members with
  | [] => rest
  | (key, value) :: members =>
    ',' :: layout.beforeItem level ++ quote key ++ ':' :: layout.afterColon ++
      render layout level value (renderMembers layout level members rest)

end

/-- The text of a value without blanks. -/
def compress (json : Json) : String := String.ofList (render .compact 0 json [])

/-- The text of a value with one item a line. -/
def pretty (json : Json) : String := String.ofList (render .lines 0 json [])

end ObjectFlow.Json
