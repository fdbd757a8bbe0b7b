import ObjectFlow.PointsTo.Result
import ObjectFlow.Program.Codec

/-!
# Points-to values as JSON
-/

namespace ObjectFlow.PointsTo

open Json (Decoder)
open Json.Decoder (choice field record variant)

namespace Phase

def name : Phase → String
  | starting => "Initializing"
  | running => "Fixpoint"
  | done => "Done"

def decode : Decoder Phase :=
  choice ([starting, running, done].map fun phase => (phase.name, phase))

end Phase

namespace ContextElem

def toJson : ContextElem → Json
  | callSite site => .obj [("CallSite", site.toJson)]
  | object id => .obj [("Object", id.toJson)]
  | type id => .obj [("Type", id.toJson)]

def decode : Decoder ContextElem :=
  variant fun levels name held =>
    match name with
    | "CallSite" => (field Site.decode levels held).map callSite
    | "Object" => (field .handle levels held).map object
    | "Type" => (field .handle levels held).map type
    | _ => none

end ContextElem

namespace Obj

/-- An object together with its handle. -/
def toJson (id : ObjId) (object : Obj) : Json :=
  .obj [("id", id.toJson), ("alloc", object.alloc.toJson), ("ty", object.type.toJson)]

end Obj

namespace CsObj

def toJson (object : CsObj) : Json :=
  .obj [("context", object.context.toJson), ("obj", object.object.toJson)]

end CsObj

namespace Pointer

def toJson : Pointer → Json
  | .var context v => .obj [("Var", .obj [("context", context.toJson), ("var", v.toJson)])]
  | .staticField field => .obj [("StaticField", .obj [("field", field.toJson)])]
  | .instanceField base field =>
    .obj [("InstanceField", .obj [("base", base.toJson), ("field", field.toJson)])]
  | .arraySlots base => .obj [("ArrayIndex", .obj [("array", base.toJson)])]

def decodeVar : Decoder Pointer :=
  record ["context", "var"] fun levels fields =>
    match fields with
    | [context, v] => do return .var (← field .handle levels context) (← field .handle levels v)
    | _ => none

def decodeStatic : Decoder Pointer :=
  record ["field"] fun levels fields =>
    match fields with
    | [accessed] => do return .staticField (← field .handle levels accessed)
    | _ => none

def decodeInstance : Decoder Pointer :=
  record ["base", "field"] fun levels fields =>
    match fields with
    | [base, accessed] => do
      return .instanceField (← field .handle levels base) (← field .handle levels accessed)
    | _ => none

def decodeSlots : Decoder Pointer :=
  record ["array"] fun levels fields =>
    match fields with
    | [base] => do return .arraySlots (← field .handle levels base)
    | _ => none

def decode : Decoder Pointer :=
  variant fun levels name held =>
    match name with
    | "Var" => field decodeVar levels held
    | "StaticField" => field decodeStatic levels held
    | "InstanceField" => field decodeInstance levels held
    | "ArrayIndex" => field decodeSlots levels held
    | _ => none

end Pointer

/-- The JSON form of a set of numbers: its members in a list. -/
def numbersToJson (set : SortedSet Nat) : Json := .obj [("elements", .ofList .nat set.toList)]

/-- Reads a set of numbers: the list is taken as it is. -/
def decodeNumbers : Decoder (SortedSet Nat) :=
  record ["elements"] fun levels fields =>
    match fields with
    | [elements] => do return ⟨← field (.list .word32) levels elements⟩
    | _ => none

/-- The JSON form of a points-to set. -/
def setToJson (set : PointsToSet) : Json :=
  .obj [("bits", numbersToJson ⟨set.toList.map Handle.index⟩)]

/-- Reads a points-to set. -/
def decodeSet : Decoder PointsToSet :=
  record ["bits"] fun levels fields =>
    match fields with
    | [bits] => do return ⟨(← field decodeNumbers levels bits).toList.map Handle.mk⟩
    | _ => none

end ObjectFlow.PointsTo
