import ObjectFlow.Json.Token

/-!
# Reading JSON text

The reader walks over the tokens once.  The containers that are still open wait on a
stack, so a text may nest as deeply as it likes.
-/

namespace ObjectFlow.Json

/-- A container that is still open, with what it holds so far, last first. -/
inductive Frame where
  | array (items : List Json)
  | object (members : List (Option String × Json)) (key : Option String)

/-- What the text may continue with. -/
inductive Cursor where
  /-- A value. -/
  | value (stack : List Frame)
  /-- The first item of an array, or its end. -/
  | firstItem (stack : List Frame)
  /-- A comma, or the end of the array. -/
  | afterItem (items : List Json) (stack : List Frame)
  /-- The first key of an object, or its end. -/
  | firstKey (stack : List Frame)
  /-- A key. -/
  | key (members : List (Option String × Json)) (stack : List Frame)
  /-- The colon after a key. -/
  | colon (members : List (Option String × Json)) (key : Option String) (stack : List Frame)
  /-- A comma, or the end of the object. -/
  | afterMember (members : List (Option String × Json)) (stack : List Frame)
  /-- Nothing more. -/
  | complete (json : Json)

namespace Cursor

/-- Puts a finished value into the container that waits for it. -/
def plug (json : Json) : List Frame → Cursor
  | [] => .complete json
  | .array items :: stack => .afterItem (json :: items) stack
  | .object members name :: stack => .afterMember ((name, json) :: members) stack

/-- Starts the value that a token opens, or finishes it when it is a scalar. -/
def startValue (stack : List Frame) : Token → Option Cursor
  | .openBracket => some (.firstItem stack)
  | .openBrace => some (.firstKey stack)
  | .text content => some (plug (.text content) stack)
  | .scalar json => some (plug json stack)
  | _ => none

/-- Moves over one token. -/
def advance : Cursor → Token → Option Cursor
  | .value stack, token => startValue stack token
  | .firstItem stack, .closeBracket => some (plug (.array []) stack)
  | .firstItem stack, token => startValue (.array [] :: stack) token
  | .afterItem items stack, .comma => some (.value (.array items :: stack))
  | .afterItem items stack, .closeBracket => some (plug (.array items.reverse) stack)
  | .firstKey stack, .closeBrace => some (plug (.object []) stack)
  | .firstKey stack, .text content => some (.colon [] content stack)
  | .key members stack, .text content => some (.colon members content stack)
  | .colon members name stack, .colon => some (.value (.object members name :: stack))
  | .afterMember members stack, .comma => some (.key members stack)
  | .afterMember members stack, .closeBrace => some (plug (.object members.reverse) stack)
  | _, _ => none

/-- The value that was read, if the text may end here. -/
def result? : Cursor → Option Json
  | .complete json => some json
  | _ => none

end Cursor

/-- The value that a sequence of tokens spells. -/
def ofTokens? (tokens : List Token) : Option Json := do
  (← tokens.foldlM Cursor.advance (.value [])).result?

/-- Reads a text that holds one value and nothing else. -/
def parse? (text : String) : Option Json := do
  ofTokens? (← Token.scan text.toList)

end ObjectFlow.Json
