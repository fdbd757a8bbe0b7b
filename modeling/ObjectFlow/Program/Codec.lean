import ObjectFlow.Json.Decoder
import ObjectFlow.Json.Printer
import ObjectFlow.Program.Basic

/-!
# Programs as JSON

Every piece of a listing has an encoder and a decoder.  Members are written in the
order in which the fields are declared here.
-/

namespace ObjectFlow

open Json (Decoder)
open Json.Decoder (field optionalField record variant choice holdsNothing)

namespace Handle

variable {kind : Kind}

def toJson (handle : Handle kind) : Json := .nat handle.index

end Handle

namespace Site

def toJson (site : Site) : Json :=
  .obj [("method", site.method.toJson), ("index", .nat site.index)]

def decode : Decoder Site :=
  record ["method", "index"] fun levels fields =>
    match fields with
    | [method, index] => do
      return ⟨← field .handle levels method, ← field .word32 levels index⟩
    | _ => none

end Site

namespace Ty

/-- The types that hold nothing, by name. -/
def primitives : List (String × Ty) :=
  [("Boolean", boolean), ("Byte", byte), ("Short", short), ("Char", char), ("Int", int),
    ("Long", long), ("Float", float), ("Double", double)]

def toJson : Ty → Json
  | boolean => .str "Boolean"
  | byte => .str "Byte"
  | short => .str "Short"
  | char => .str "Char"
  | int => .str "Int"
  | long => .str "Long"
  | float => .str "Float"
  | double => .str "Double"
  | object type => .obj [("Class", type.toJson)]
  | array element => .obj [("Array", element.toJson)]

/-- Array types nest, one level for each. -/
def decode : Decoder Ty
  | levels + 1, .object [(some "Array", element)] => (decode levels element).map .array
  | levels, json =>
    variant (fun levels name held =>
      if name == "Class" then (field .handle levels held).map object
      else if holdsNothing held then primitives.lookup name
      else none) levels json

end Ty

namespace CallKind

def toJson : CallKind → Json
  | static => .str "Static"
  | special => .str "Special"
  | virtual => .str "Virtual"
  | interface => .str "Interface"

def decode : Decoder CallKind :=
  choice [("Static", static), ("Special", special), ("Virtual", virtual),
    ("Interface", interface)]

end CallKind

namespace MethodRef

def toJson (target : MethodRef) : Json :=
  .obj [("declaring_class", target.declaringClass.toJson),
    ("subsignature", .str target.subsignature)]

def decode : Decoder MethodRef :=
  record ["declaring_class", "subsignature"] fun levels fields =>
    match fields with
    | [declaringClass, subsignature] => do
      return ⟨← field .handle levels declaringClass, ← field .text levels subsignature⟩
    | _ => none

end MethodRef

namespace Call

def toJson (call : Call) : Json :=
  .obj [("kind", call.kind.toJson), ("method_ref", call.target.toJson),
    ("base", .ofOption Handle.toJson call.base), ("args", .ofList Handle.toJson call.args),
    ("result", .ofOption Handle.toJson call.result)]

def decode : Decoder Call :=
  record ["kind", "method_ref", "base", "args", "result"] fun levels fields =>
    match fields with
    | [kind, target, base, args, result] => do
      return {
        kind := ← field CallKind.decode levels kind
        target := ← field MethodRef.decode levels target
        base := ← optionalField .handle levels base
        args := ← field (.list .handle) levels args
        result := ← optionalField .handle levels result }
    | _ => none

end Call

namespace BinaryOp

def name : BinaryOp → String
  | add => "Add"
  | sub => "Sub"
  | mul => "Mul"
  | div => "Div"
  | rem => "Rem"
  | eq => "Eq"
  | ne => "Ne"
  | lt => "Lt"
  | le => "Le"
  | gt => "Gt"
  | ge => "Ge"
  | shl => "Shl"
  | shr => "Shr"
  | ushr => "Ushr"
  | and => "And"
  | or => "Or"
  | xor => "Xor"

def all : List BinaryOp :=
  [add, sub, mul, div, rem, eq, ne, lt, le, gt, ge, shl, shr, ushr, and, or, xor]

def toJson (op : BinaryOp) : Json := .str op.name

def decode : Decoder BinaryOp := choice (all.map fun op => (op.name, op))

end BinaryOp

namespace Exp

def toJson : Exp → Json
  | literal value => .obj [("IntLiteral", .integer value.toInt)]
  | var v => .obj [("Var", v.toJson)]
  | binary op lhs rhs =>
    .obj [("Binary", .obj [("op", op.toJson), ("lhs", lhs.toJson), ("rhs", rhs.toJson)])]

def decodeBinary : Decoder Exp :=
  record ["op", "lhs", "rhs"] fun levels fields =>
    match fields with
    | [op, lhs, rhs] => do
      return .binary (← field BinaryOp.decode levels op) (← field .handle levels lhs)
        (← field .handle levels rhs)
    | _ => none

def decode : Decoder Exp :=
  variant fun levels name held =>
    if name == "IntLiteral" then (field .int32 levels held).map literal
    else if name == "Var" then (field .handle levels held).map var
    else if name == "Binary" then field decodeBinary levels held
    else none

end Exp

namespace Stmt

/-- The JSON form of one case of a switch. -/
def caseToJson (c : Int32 × Nat) : Json := .array [.integer c.1.toInt, .nat c.2]

def toJson : Stmt → Json
  | alloc lhs type => .obj [("New", .obj [("lhs", lhs.toJson), ("ty", type.toJson)])]
  | copy lhs rhs => .obj [("Copy", .obj [("lhs", lhs.toJson), ("rhs", rhs.toJson)])]
  | assign lhs rhs => .obj [("Assign", .obj [("lhs", lhs.toJson), ("rhs", rhs.toJson)])]
  | loadField lhs base field =>
    .obj [("LoadField", .obj [("lhs", lhs.toJson), ("base", .ofOption Handle.toJson base),
      ("field", field.toJson)])]
  | storeField base field rhs =>
    .obj [("StoreField", .obj [("base", .ofOption Handle.toJson base), ("field", field.toJson),
      ("rhs", rhs.toJson)])]
  | loadArray lhs base index =>
    .obj [("LoadArray", .obj [("lhs", lhs.toJson), ("base", base.toJson),
      ("index", index.toJson)])]
  | storeArray base index rhs =>
    .obj [("StoreArray", .obj [("base", base.toJson), ("index", index.toJson),
      ("rhs", rhs.toJson)])]
  | invoke call => .obj [("Invoke", call.toJson)]
  | branch condition target =>
    .obj [("If", .obj [("condition", condition.toJson), ("target", .nat target)])]
  | jump target => .obj [("Goto", .obj [("target", .nat target)])]
  | switch var cases default =>
    .obj [("Switch", .obj [("var", var.toJson), ("cases", .ofList caseToJson cases),
      ("default", .nat default)])]
  | ret value => .obj [("Return", .obj [("value", .ofOption Handle.toJson value)])]
  | nop => .str "Nop"

/-- The decoders of the statements that hold something, by name. -/
def decoders : List (String × Decoder Stmt) := [
  ("New", record ["lhs", "ty"] fun levels fields =>
    match fields with
    | [lhs, type] => do
      return .alloc (← field .handle levels lhs) (← field Ty.decode levels type)
    | _ => none),
  ("Copy", record ["lhs", "rhs"] fun levels fields =>
    match fields with
    | [lhs, rhs] => do
      return .copy (← field .handle levels lhs) (← field .handle levels rhs)
    | _ => none),
  ("Assign", record ["lhs", "rhs"] fun levels fields =>
    match fields with
    | [lhs, rhs] => do
      return .assign (← field .handle levels lhs) (← field Exp.decode levels rhs)
    | _ => none),
  ("LoadField", record ["lhs", "base", "field"] fun levels fields =>
    match fields with
    | [lhs, base, accessed] => do
      return .loadField (← field .handle levels lhs) (← optionalField .handle levels base)
        (← field .handle levels accessed)
    | _ => none),
  ("StoreField", record ["base", "field", "rhs"] fun levels fields =>
    match fields with
    | [base, accessed, rhs] => do
      return .storeField (← optionalField .handle levels base) (← field .handle levels accessed)
        (← field .handle levels rhs)
    | _ => none),
  ("LoadArray", record ["lhs", "base", "index"] fun levels fields =>
    match fields with
    | [lhs, base, index] => do
      return .loadArray (← field .handle levels lhs) (← field .handle levels base)
        (← field .handle levels index)
    | _ => none),
  ("StoreArray", record ["base", "index", "rhs"] fun levels fields =>
    match fields with
    | [base, index, rhs] => do
      return .storeArray (← field .handle levels base) (← field .handle levels index)
        (← field .handle levels rhs)
    | _ => none),
  ("Invoke", Decoder.map .invoke Call.decode),
  ("If", record ["condition", "target"] fun levels fields =>
    match fields with
    | [condition, target] => do
      return .branch (← field Exp.decode levels condition) (← field .word64 levels target)
    | _ => none),
  ("Goto", record ["target"] fun levels fields =>
    match fields with
    | [target] => do return .jump (← field .word64 levels target)
    | _ => none),
  ("Switch", record ["var", "cases", "default"] fun levels fields =>
    match fields with
    | [var, cases, default] => do
      return .switch (← field .handle levels var)
        (← field (.list (.pair .int32 .word64)) levels cases) (← field .word64 levels default)
    | _ => none),
  ("Return", record ["value"] fun levels fields =>
    match fields with
    | [value] => do return .ret (← optionalField .handle levels value)
    | _ => none)]

def decode : Decoder Stmt :=
  variant fun levels name held =>
    if name == "Nop" then if holdsNothing held then some nop else none
    else do field (← decoders.lookup name) levels held

end Stmt

namespace Class

def toJson (c : Class) : Json :=
  .obj [("id", c.id.toJson), ("name", .str c.name),
    ("super_class", .ofOption Handle.toJson c.superClass),
    ("interfaces", .ofList Handle.toJson c.interfaces), ("is_interface", .bool c.isInterface),
    ("is_abstract", .bool c.isAbstract), ("methods", .ofList Handle.toJson c.methods)]

def decode : Decoder Class :=
  record ["id", "name", "super_class", "interfaces", "is_interface", "is_abstract", "methods"]
    fun levels fields =>
      match fields with
      | [id, name, superClass, interfaces, isInterface, isAbstract, methods] => do
        return {
          id := ← field .handle levels id
          name := ← field .text levels name
          superClass := ← optionalField .handle levels superClass
          interfaces := ← field (.list .handle) levels interfaces
          isInterface := ← field .bool levels isInterface
          isAbstract := ← field .bool levels isAbstract
          methods := ← field (.list .handle) levels methods }
      | _ => none

end Class

namespace Field

def toJson (f : Field) : Json :=
  .obj [("id", f.id.toJson), ("name", .str f.name),
    ("declaring_class", f.declaringClass.toJson), ("ty", f.type.toJson),
    ("is_static", .bool f.isStatic)]

def decode : Decoder Field :=
  record ["id", "name", "declaring_class", "ty", "is_static"] fun levels fields =>
    match fields with
    | [id, name, declaringClass, type, isStatic] => do
      return {
        id := ← field .handle levels id
        name := ← field .text levels name
        declaringClass := ← field .handle levels declaringClass
        type := ← field Ty.decode levels type
        isStatic := ← field .bool levels isStatic }
    | _ => none

end Field

namespace Var

def toJson (v : Var) : Json :=
  .obj [("id", v.id.toJson), ("name", .str v.name), ("ty", v.type.toJson),
    ("method", v.method.toJson)]

def decode : Decoder Var :=
  record ["id", "name", "ty", "method"] fun levels fields =>
    match fields with
    | [id, name, type, method] => do
      return {
        id := ← field .handle levels id
        name := ← field .text levels name
        type := ← field Ty.decode levels type
        method := ← field .handle levels method }
    | _ => none

end Var

namespace Method

def toJson (m : Method) : Json :=
  .obj [("id", m.id.toJson), ("name", .str m.name),
    ("declaring_class", m.declaringClass.toJson), ("subsignature", .str m.subsignature),
    ("is_static", .bool m.isStatic), ("is_abstract", .bool m.isAbstract),
    ("this", .ofOption Handle.toJson m.this), ("params", .ofList Handle.toJson m.params),
    ("stmts", .ofArray Stmt.toJson m.stmts)]

def decode : Decoder Method :=
  record ["id", "name", "declaring_class", "subsignature", "is_static", "is_abstract", "this",
      "params", "stmts"]
    fun levels fields =>
      match fields with
      | [id, name, declaringClass, subsignature, isStatic, isAbstract, this, params, stmts] => do
        return {
          id := ← field .handle levels id
          name := ← field .text levels name
          declaringClass := ← field .handle levels declaringClass
          subsignature := ← field .text levels subsignature
          isStatic := ← field .bool levels isStatic
          isAbstract := ← field .bool levels isAbstract
          this := ← optionalField .handle levels this
          params := ← field (.list .handle) levels params
          stmts := ← field (.array Stmt.decode) levels stmts }
      | _ => none

end Method

namespace Listing

def toJson (listing : Listing) : Json :=
  .obj [("classes", .ofArray Class.toJson listing.classes),
    ("methods", .ofArray Method.toJson listing.methods),
    ("fields", .ofArray Field.toJson listing.fields),
    ("vars", .ofArray Var.toJson listing.vars),
    ("entry_methods", .ofList Handle.toJson listing.entries)]

def decode : Decoder Listing :=
  record ["classes", "methods", "fields", "vars", "entry_methods"] fun levels fields =>
    match fields with
    | [classes, methods, members, vars, entries] => do
      return {
        classes := ← field (.array Class.decode) levels classes
        methods := ← field (.array Method.decode) levels methods
        fields := ← field (.array Field.decode) levels members
        vars := ← field (.array Var.decode) levels vars
        entries := ← field (.list .handle) levels entries }
    | _ => none

end Listing

/-- Why a text gives no program. -/
inductive LoadError where
  /-- The text is not the JSON form of a listing. -/
  | malformed
  /-- The listing has a defect. -/
  | invalid (defect : Defect)
  deriving DecidableEq, Repr

namespace Program

/-- Checks and indexes a listing in its JSON form. -/
def ofJson (json : Json) : Except LoadError Program :=
  match Listing.decode Json.maxLevels json with
  | none => .error .malformed
  | some listing => (ofListing listing).mapError .invalid

/-- Reads a program from JSON text. -/
def ofText (text : String) : Except LoadError Program :=
  match Json.parse? text with
  | none => .error .malformed
  | some json => ofJson json

/-- The JSON text of a program, with one item a line. -/
def toText (program : Program) : String := program.listing.toJson.pretty

end Program

end ObjectFlow
