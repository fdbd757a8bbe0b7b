import ObjectFlow.Yaml.Basic

/-!
# Reading typed values from YAML

Tags do not matter to the values read here.  A record is a mapping with texts as keys; a
tagged null stands for a record without any field, as it is a value and not absent.
-/

namespace ObjectFlow.Yaml

variable {α : Type}

def text? (yaml : Yaml) : Option String :=
  match yaml.untag with
  | .text content => some content
  | _ => none

def bool? (yaml : Yaml) : Option Bool :=
  match yaml.untag with
  | .bool value => some value
  | _ => none

/-- A 64-bit unsigned number. -/
def word64? (yaml : Yaml) : Option Nat :=
  match yaml.untag with
  | .integer (.ofNat value) => if value < UInt64.size then some value else none
  | _ => none

/-- The fields of a record with their names. -/
def fields? (yaml : Yaml) : Option (List (String × Yaml)) :=
  match yaml.untag with
  | .mapping entries => entries.mapM fun (key, value) => key.text?.map (·, value)
  | .null => some []
  | _ => none

/-- Whether no text is there twice. -/
def distinct : List String → Bool
  | [] => true
  | name :: rest => !rest.contains name && distinct rest

/-- The fields of a record that has no others than the given ones. -/
def record? (names : List String) (yaml : Yaml) : Option (List (String × Yaml)) := do
  let fields ← yaml.fields?
  let found := fields.map (·.1)
  if found.all names.contains && distinct found then some fields else none

/-- A field that is absent when it is null or not there. -/
def optionalField (read : Yaml → Option α) : Option Yaml → Option (Option α)
  | none => some none
  | some .null => some none
  | some value => (read value).map some

/-- A field that has a value of its own when it is not there. -/
def defaultField (default : α) (read : Yaml → Option α) : Option Yaml → Option α
  | none => some default
  | some value => read value

/-- The name of a variant that holds nothing: a text, or the tag of a null. -/
def variant? : Yaml → Option String
  | .text name => some name
  | .tagged name .null => some name
  | _ => none

end ObjectFlow.Yaml
