import ObjectFlow.Binary64

/-!
# YAML values

A document is a tree of sequences, mappings and scalars, some of which have a tag.  The
keys of a mapping are values themselves, all different; the order of its entries does not
matter for equality.
-/

namespace ObjectFlow

inductive Yaml where
  | null
  | bool (value : Bool)
  | integer (value : Int)
  | real (value : Binary64)
  | text (content : String)
  | sequence (items : List Yaml)
  | mapping (entries : List (Yaml × Yaml))
  | tagged (tag : String) (content : Yaml)
  deriving Repr

namespace Yaml

mutual

/-- Whether two values are equal. -/
def same : Yaml → Yaml → Bool
  | .null, .null => true
  | .bool left, .bool right => left == right
  | .integer left, .integer right => left == right
  | .real left, .real right => left == right
  | .text left, .text right => left == right
  | .sequence left, .sequence right => sameItems left right
  | .mapping left, .mapping right => left.length == right.length && within left right
  | .tagged left content, .tagged right other => left == right && same content other
  | _, _ => false

def sameItems : List Yaml → List Yaml → Bool
  | [], [] => true
  | left :: lefts, right :: rights => same left right && sameItems lefts rights
  | _, _ => false

/-- Whether every entry is one of the given ones. -/
def within : List (Yaml × Yaml) → List (Yaml × Yaml) → Bool
  | [], _ => true
  | (key, value) :: rest, entries =>
    entries.any (fun entry => same key entry.1 && same value entry.2) && within rest entries

end

instance : BEq Yaml := ⟨same⟩

/-- A mapping with one more entry in front, unless the key is there. -/
def addEntry (entries : List (Yaml × Yaml)) (key value : Yaml) : Option (List (Yaml × Yaml)) :=
  if entries.any fun entry => entry.1 == key then none else some ((key, value) :: entries)

/-- The value without its tag. -/
def untag : Yaml → Yaml
  | .tagged _ content => content.untag
  | yaml => yaml

/-- The value under a key that is a text without a tag. -/
def get? (yaml : Yaml) (key : String) : Option Yaml :=
  match yaml.untag with
  | .mapping entries => entries.lookup (.text key)
  | _ => none

end Yaml

end ObjectFlow
