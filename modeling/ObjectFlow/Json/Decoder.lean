import ObjectFlow.Handle
import ObjectFlow.Json.Parser

/-!
# Reading typed values from JSON

A decoder looks at a value and either reads a typed value from it or refuses it.  It
is told how many containers it may still open one inside the other; members that it
skips are not opened.

A record is an object with its fields as members, or an array of its fields in their
order.  A variant is an object with the name of the variant as its only key; one that
holds nothing may also be written as its name alone.
-/

namespace ObjectFlow.Json

/-- Reads a typed value, opening at most `levels` containers one inside the other. -/
abbrev Decoder (α : Type) := (levels : Nat) → Json → Option α

/-- The number of containers that a whole text may open one inside the other. -/
def maxLevels : Nat := 127

/-- Decodes a whole text. -/
def decodeText? {α : Type} (decoder : Decoder α) (text : String) : Option α := do
  decoder maxLevels (← parse? text)

namespace Decoder

variable {α β : Type}

def map (f : α → β) (decoder : Decoder α) : Decoder β :=
  fun levels json => (decoder levels json).map f

/-- A natural number below a bound, written as an integer. -/
def natBelow (bound : Nat) : Decoder Nat
  | _, .integer (.ofNat value) => if value < bound then some value else none
  | _, _ => none

/-- A 32-bit unsigned number. -/
def word32 : Decoder Nat := natBelow UInt32.size

/-- A 64-bit unsigned number. -/
def word64 : Decoder Nat := natBelow UInt64.size

/-- A 32-bit signed number. -/
def int32 : Decoder Int32
  | _, .integer value =>
    if -0x80000000 ≤ value ∧ value < 0x80000000 then some (Int32.ofInt value) else none
  | _, _ => none

def bool : Decoder Bool
  | _, .bool value => some value
  | _, _ => none

def text : Decoder String
  | _, .text content => content
  | _, _ => none

/-- Null is read as absent. -/
def optional (decoder : Decoder α) : Decoder (Option α)
  | _, .null => some none
  | levels, json => (decoder levels json).map some

def list (decoder : Decoder α) : Decoder (List α)
  | levels + 1, .array items => items.mapM (decoder levels)
  | _, _ => none

def array (decoder : Decoder α) : Decoder (Array α) :=
  map List.toArray (list decoder)

/-- An array of exactly two items. -/
def pair (first : Decoder α) (second : Decoder β) : Decoder (α × β)
  | levels + 1, .array [a, b] => do return (← first levels a, ← second levels b)
  | _, _ => none

def handle {kind : Kind} : Decoder (Handle kind) := map Handle.mk word32

/-- How freely a record may be written. -/
structure Freedom where
  /-- Members with other keys are skipped. -/
  otherKeys : Bool
  /-- An array may leave out the last fields. -/
  shortArrays : Bool

/-- Other keys are skipped, and an array holds every field. -/
def Freedom.usual : Freedom := ⟨true, false⟩

/-- Every field may be left out, but no other key may be there. -/
def Freedom.defaulted : Freedom := ⟨false, true⟩

/-- The values of the members with one key. -/
def valuesOf (name : String) (members : List (Option String × Json)) : List Json :=
  members.filterMap fun (key, value) => if key == some name then some value else none

/-- The value of a field that may be there at most once. -/
def atMostOnce : List Json → Option (Option Json)
  | [] => some none
  | [value] => some (some value)
  | _ => none

/-- Whether a key may stand in a record with the given fields. -/
def keyAllowed (freedom : Freedom) (names : List String) : Option String → Bool
  | none => false
  | some key => freedom.otherKeys || names.contains key

/-- The fields of a record in their order, each absent or with its value. -/
def fields? (freedom : Freedom) (names : List String) : Json → Option (List (Option Json))
  | .object members =>
    if members.all fun (key, _) => keyAllowed freedom names key then
      names.mapM fun name => atMostOnce (valuesOf name members)
    else none
  | .array items =>
    if items.length = names.length ∨ (freedom.shortArrays ∧ items.length < names.length) then
      some (items.map some ++ List.replicate (names.length - items.length) none)
    else none
  | _ => none

/-- A record, from a reader of its fields. -/
def recordWith (freedom : Freedom) (names : List String)
    (read : (levels : Nat) → List (Option Json) → Option α) : Decoder α
  | levels + 1, json => (fields? freedom names json).bind (read levels)
  | 0, _ => none

/-- A record in which other keys are skipped. -/
def record (names : List String)
    (read : (levels : Nat) → List (Option Json) → Option α) : Decoder α :=
  recordWith .usual names read

/-- A field that has to be there. -/
def field (decoder : Decoder α) (levels : Nat) (value : Option Json) : Option α :=
  value.bind (decoder levels)

/-- A field that is absent when it is null or not there. -/
def optionalField (decoder : Decoder α) (levels : Nat) : Option Json → Option (Option α)
  | none => some none
  | some json => optional decoder levels json

/-- A field that has a value of its own when it is not there. -/
def defaultField (default : α) (decoder : Decoder α) (levels : Nat) : Option Json → Option α
  | none => some default
  | some json => decoder levels json

/-- A variant, from a reader of its name and of what it holds. -/
def variant (read : (levels : Nat) → String → Option Json → Option α) : Decoder α
  | levels, .text (some name) => read levels name none
  | levels + 1, .object [(some name, held)] => read levels name (some held)
  | _, _ => none

/-- A variant that holds nothing: its name alone, or null under its name. -/
def holdsNothing : Option Json → Bool
  | none => true
  | some .null => true
  | _ => false

/-- One of several variants that hold nothing. -/
def choice (names : List (String × α)) : Decoder α :=
  variant fun _ name held => if holdsNothing held then names.lookup name else none

end Decoder

end ObjectFlow.Json
