import ObjectFlow.Program.Builder
import ObjectFlow.Program.Codec

/-!
# Edits

An edit is one step in writing a listing.  A script of edits is written as JSON arrays:
the name of an edit, followed by its arguments.
-/

namespace ObjectFlow

open Json (Decoder)

/-- One step in writing the body of a method. -/
inductive BodyEdit where
  | addVar (name : String) (type : Ty)
  | addParam (name : String) (type : Ty)
  | addStmt (new : NewStmt)
  | setTarget (index target : Nat)
  deriving DecidableEq, Repr

/-- One step in writing a listing. -/
inductive Edit where
  | addClass (name : String) (superClass : Option ClassId)
  | addAbstractClass (name : String) (superClass : Option ClassId)
  | addInterface (name : String) (interfaces : List ClassId)
  | implement (id interface : ClassId)
  | addField (declaringClass : ClassId) (name : String) (type : Ty) (isStatic : Bool)
  | addMethod (form : MethodForm) (declaringClass : ClassId) (name subsignature : String)
  | addEntry (method : MethodId)
  | editBody (method : MethodId) (edit : BodyEdit)
  deriving DecidableEq, Repr

namespace BodyEdit

def apply (listing : Listing) (method : MethodId) : BodyEdit → Except Fault Listing
  | addVar name type => .ok (listing.addVar method name type)
  | addParam name type => listing.addParam method name type
  | addStmt new => listing.addStmt method new
  | setTarget index target => listing.setTarget ⟨method, index⟩ target

/-- The number that an edit gives out: the handle of a new variable, or the position of
a new statement. -/
def result? (listing : Listing) (method : MethodId) : BodyEdit → Except Fault (Option Nat)
  | addVar _ _ => .ok (some listing.nextVar.index)
  | addParam _ _ => .ok (some listing.nextVar.index)
  | addStmt _ => (listing.nextIndex method).map some
  | setTarget _ _ => .ok none

end BodyEdit

namespace Edit

def apply (listing : Listing) : Edit → Except Fault Listing
  | addClass name superClass => .ok (listing.addClass name superClass)
  | addAbstractClass name superClass => .ok (listing.addAbstractClass name superClass)
  | addInterface name interfaces => .ok (listing.addInterface name interfaces)
  | implement id interface => listing.implement id interface
  | addField declaringClass name type isStatic =>
    .ok (listing.addField declaringClass name type isStatic)
  | addMethod form declaringClass name subsignature =>
    listing.addMethod form declaringClass name subsignature
  | addEntry method => .ok (listing.addEntry method)
  | editBody method edit => edit.apply listing method

/-- The number that an edit gives out: the handle of a new item, or the position of a
new statement. -/
def result? (listing : Listing) : Edit → Except Fault (Option Nat)
  | addClass _ _ => .ok (some listing.nextClass.index)
  | addAbstractClass _ _ => .ok (some listing.nextClass.index)
  | addInterface _ _ => .ok (some listing.nextClass.index)
  | implement _ _ => .ok none
  | addField _ _ _ _ => .ok (some listing.nextField.index)
  | addMethod _ _ _ _ => .ok (some listing.nextMethod.index)
  | addEntry _ => .ok none
  | editBody method edit => edit.result? listing method

/-- Edits made one after the other. -/
def applyAll (listing : Listing) (edits : List Edit) : Except Fault Listing :=
  edits.foldlM apply listing

end Edit

namespace Script

/-- Reads one argument. -/
def arg {α : Type} (decoder : Decoder α) (json : Json) : Option α := decoder Json.maxLevels json

/-- The target of a call: class and subsignature. -/
def target : Decoder MethodRef :=
  Decoder.map (fun (declaringClass, subsignature) => ⟨declaringClass, subsignature⟩)
    (.pair .handle .text)

/-- A call on a receiver, from the arguments of its step. -/
def receiverCall (call : Option VarId → VarId → MethodRef → List VarId → NewStmt)
    (result base callee args : Json) : Option NewStmt := do
  return call (← arg (.optional .handle) result) (← arg .handle base) (← arg target callee)
    (← arg (.list .handle) args)

/-- The statement that a step appends, from the name of the step and its arguments. -/
def newStmt? : String → List Json → Option NewStmt
  | "push", [stmt] => do return .push (← arg Stmt.decode stmt)
  | "new", [lhs, type] => do return .alloc (← arg .handle lhs) (← arg Ty.decode type)
  | "copy", [lhs, rhs] => do return .copy (← arg .handle lhs) (← arg .handle rhs)
  | "assign", [lhs, rhs] => do return .assign (← arg .handle lhs) (← arg Exp.decode rhs)
  | "const", [lhs, value] => do return .const (← arg .handle lhs) (← arg .int32 value)
  | "binary", [lhs, op, a, b] => do
    return .binary (← arg .handle lhs) (← arg BinaryOp.decode op) (← arg .handle a)
      (← arg .handle b)
  | "load_field", [lhs, base, field] => do
    return .loadField (← arg .handle lhs) (← arg .handle base) (← arg .handle field)
  | "store_field", [base, field, rhs] => do
    return .storeField (← arg .handle base) (← arg .handle field) (← arg .handle rhs)
  | "load_static", [lhs, field] => do
    return .loadStatic (← arg .handle lhs) (← arg .handle field)
  | "store_static", [field, rhs] => do
    return .storeStatic (← arg .handle field) (← arg .handle rhs)
  | "load_array", [lhs, base, index] => do
    return .loadArray (← arg .handle lhs) (← arg .handle base) (← arg .handle index)
  | "store_array", [base, index, rhs] => do
    return .storeArray (← arg .handle base) (← arg .handle index) (← arg .handle rhs)
  | "invoke", [kind, result, base, callee, args] => do
    return .invoke (← arg CallKind.decode kind) (← arg (.optional .handle) result)
      (← arg (.optional .handle) base) (← arg target callee) (← arg (.list .handle) args)
  | "invoke_static", [result, callee, args] => do
    return .invokeStatic (← arg (.optional .handle) result) (← arg target callee)
      (← arg (.list .handle) args)
  | "invoke_virtual", [result, base, callee, args] =>
    receiverCall .invokeVirtual result base callee args
  | "invoke_interface", [result, base, callee, args] =>
    receiverCall .invokeInterface result base callee args
  | "invoke_special", [result, base, callee, args] =>
    receiverCall .invokeSpecial result base callee args
  | "if", [condition, target] => do
    return .branch (← arg Exp.decode condition) (← arg .word64 target)
  | "goto", [target] => do return .jump (← arg .word64 target)
  | "switch", [var, cases, default] => do
    return .switch (← arg .handle var) (← arg (.list (.pair .int32 .word64)) cases)
      (← arg .word64 default)
  | "ret", [value] => do return .ret (← arg (.optional .handle) value)
  | "nop", [] => some .nop
  | _, _ => none

/-- The edit of a body that a step makes. -/
def bodyEdit? : String → List Json → Option BodyEdit
  | "var", [name, type] => do return .addVar (← arg .text name) (← arg Ty.decode type)
  | "param", [name, type] => do return .addParam (← arg .text name) (← arg Ty.decode type)
  | "set_target", [index, target] => do
    return .setTarget (← arg .word64 index) (← arg .word64 target)
  | name, args => (newStmt? name args).map .addStmt

/-- The edit that declares a method. -/
def methodEdit (form : MethodForm) (declaringClass name subsignature : Json) : Option Edit := do
  return .addMethod form (← arg .handle declaringClass) (← arg .text name)
    (← arg .text subsignature)

/-- The edit that a step outside of bodies makes. -/
def edit? : String → List Json → Option Edit
  | "class", [name, superClass] => do
    return .addClass (← arg .text name) (← arg (.optional .handle) superClass)
  | "abstract_class", [name, superClass] => do
    return .addAbstractClass (← arg .text name) (← arg (.optional .handle) superClass)
  | "interface", [name, interfaces] => do
    return .addInterface (← arg .text name) (← arg (.list .handle) interfaces)
  | "field", [declaringClass, name, type, isStatic] => do
    return .addField (← arg .handle declaringClass) (← arg .text name) (← arg Ty.decode type)
      (← arg .bool isStatic)
  | "implement", [id, interface] => do
    return .implement (← arg .handle id) (← arg .handle interface)
  | "entry", [method] => do return .addEntry (← arg .handle method)
  | "method", [declaringClass, name, subsignature] =>
    methodEdit .concrete declaringClass name subsignature
  | "static_method", [declaringClass, name, subsignature] =>
    methodEdit .static declaringClass name subsignature
  | "abstract_method", [declaringClass, name, subsignature] =>
    methodEdit .abstract declaringClass name subsignature
  | _, _ => none

end Script

end ObjectFlow
