/-!
# JSON values

A value keeps what a reader of the text can tell apart: whether a number was written
as an integer, the order of the members of an object, and repeated keys.  A text is
absent when its literal has a surrogate escape without its partner, because no
character string has such a content; such a text can be skipped but not read.
-/

namespace ObjectFlow

inductive Json where
  | null
  | bool (value : Bool)
  /-- A number written without fraction and exponent, and not as `-0`. -/
  | integer (value : Int)
  /-- Any other number, as it was written. -/
  | decimal (literal : String)
  | text (content : Option String)
  | array (items : List Json)
  | object (members : List (Option String × Json))

namespace Json

def str (content : String) : Json := .text (some content)

def nat (value : Nat) : Json := .integer value

/-- An object from its members. -/
def obj (members : List (String × Json)) : Json :=
  .object (members.map fun (key, value) => (some key, value))

/-- An absent value is written as null. -/
def ofOption {α : Type} (encode : α → Json) : Option α → Json
  | none => .null
  | some value => encode value

def ofList {α : Type} (encode : α → Json) (values : List α) : Json :=
  .array (values.map encode)

def ofArray {α : Type} (encode : α → Json) (values : Array α) : Json :=
  ofList encode values.toList

/-- The first member with the given key. -/
def get? (json : Json) (key : String) : Option Json :=
  match json with
  | .object members => members.lookup (some key)
  | _ => none

end Json

end ObjectFlow
