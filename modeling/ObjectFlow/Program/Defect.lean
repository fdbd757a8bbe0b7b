import ObjectFlow.Program.Listing

/-!
# Defects of a listing

A listing can be analysed when every handle in it names an entry of its table, every
branch stays inside its method and no class is its own ancestor.  `Listing.defect?`
gives the first rule that a listing breaks, in the order in which the rules are
checked, and `Defect.message` says it in words.
-/

namespace ObjectFlow

/-- What is wrong with one statement. -/
inductive StmtDefect where
  | unknownVar (var : VarId)
  | unknownType (type : Ty)
  | unknownField (field : FieldId)
  | unknownClass (target : ClassId)
  | noReceiver (kind : CallKind)
  | branchTarget (target : Nat)
  | switchTarget (target : Nat)
  deriving DecidableEq, Repr

def StmtDefect.message : StmtDefect → String
  | unknownVar var => "unknown " ++ var.text
  | unknownType type => "allocation of unknown type " ++ type.spelling
  | unknownField field => "unknown " ++ field.text
  | unknownClass target => "call into unknown " ++ target.text
  | noReceiver kind => kind.text ++ " call without receiver"
  | branchTarget target => "branch target " ++ toString target ++ " out of range"
  | switchTarget target => "switch target " ++ toString target ++ " out of range"

/-- What is wrong with a listing. -/
inductive Defect where
  | noEntry
  | unknownEntry (entry : MethodId)
  | misplacedClass (name : String) (position : Nat) (id : ClassId)
  | unknownParent (name : String) (parent : ClassId)
  | unknownMember (name : String) (method : MethodId)
  | cyclicParents (name : String)
  | malformedField (name : String)
  | malformedVariable (name : String)
  | malformedMethod (name : String)
  | unknownLocal (method : String) (var : VarId)
  | statement (method : String) (index : Nat) (defect : StmtDefect)
  deriving DecidableEq, Repr

def Defect.message : Defect → String
  | noEntry => "no entry method"
  | unknownEntry entry => "unknown entry " ++ entry.text
  | misplacedClass name position id =>
    "class '" ++ name ++ "' stored at " ++ toString position ++ " has id " ++ id.text
  | unknownParent name parent => "class '" ++ name ++ "' references unknown " ++ parent.text
  | unknownMember name method => "class '" ++ name ++ "' declares unknown " ++ method.text
  | cyclicParents name => "class '" ++ name ++ "' has a cyclic superclass chain"
  | malformedField name => "malformed field '" ++ name ++ "'"
  | malformedVariable name => "malformed variable '" ++ name ++ "'"
  | malformedMethod name => "malformed method '" ++ name ++ "'"
  | unknownLocal method var => "method '" ++ method ++ "' binds unknown " ++ var.text
  | statement method index defect =>
    "'" ++ method ++ "' stmt " ++ toString index ++ ": " ++ defect.message

namespace Listing

def hasClass (listing : Listing) (id : ClassId) : Bool := id.index < listing.classes.size

def hasMethod (listing : Listing) (id : MethodId) : Bool := id.index < listing.methods.size

def hasField (listing : Listing) (id : FieldId) : Bool := id.index < listing.fields.size

def hasVar (listing : Listing) (id : VarId) : Bool := id.index < listing.vars.size

def hasType (listing : Listing) (type : Ty) : Bool := type.namesOnly listing.classes.size

def entryDefect? (listing : Listing) : Option Defect :=
  if listing.entries.isEmpty then some .noEntry
  else (listing.entries.find? fun entry => !listing.hasMethod entry).map .unknownEntry

def classDefect? (listing : Listing) (position : Nat) (c : Class) : Option Defect :=
  if c.id.index ≠ position then some (.misplacedClass c.name position c.id)
  else
    match (c.superClass.toList ++ c.interfaces).find? fun parent => !listing.hasClass parent with
    | some parent => some (.unknownParent c.name parent)
    | none => (c.methods.find? fun m => !listing.hasMethod m).map (.unknownMember c.name)

/-- Whether the chain of superclasses from `current` ends within `steps` steps without
meeting `origin`. -/
def chainEnds (listing : Listing) (origin : ClassId) : (steps : Nat) → Option ClassId → Bool
  | _, none => true
  | 0, some _ => false
  | steps + 1, some current =>
    current != origin &&
      listing.chainEnds origin steps (listing.classes[current.index]?.bind Class.superClass)

/-- A chain that is longer than the table of classes meets some class twice. -/
def cycleDefect? (listing : Listing) (c : Class) : Option Defect :=
  if listing.chainEnds c.id (listing.classes.size + 1) c.superClass then none
  else some (.cyclicParents c.name)

def fieldDefect? (listing : Listing) (position : Nat) (field : Field) : Option Defect :=
  if field.id.index = position ∧ listing.hasClass field.declaringClass ∧
      listing.hasType field.type then none
  else some (.malformedField field.name)

def varDefect? (listing : Listing) (position : Nat) (var : Var) : Option Defect :=
  if var.id.index = position ∧ listing.hasMethod var.method ∧ listing.hasType var.type then none
  else some (.malformedVariable var.name)

/-- What is wrong with a statement of a method with `length` statements, its variables
apart. -/
def operandDefect? (listing : Listing) (length : Nat) : Stmt → Option StmtDefect
  | .alloc _ type => if listing.hasType type then none else some (.unknownType type)
  | .loadField _ _ field => if listing.hasField field then none else some (.unknownField field)
  | .storeField _ field _ => if listing.hasField field then none else some (.unknownField field)
  | .invoke call =>
    if !listing.hasClass call.target.declaringClass then
      some (.unknownClass call.target.declaringClass)
    else if !call.isStatic && call.base.isNone then some (.noReceiver call.kind)
    else none
  | .branch _ target => if target < length then none else some (.branchTarget target)
  | .jump target => if target < length then none else some (.branchTarget target)
  | .switch _ cases default =>
    ((cases.map (·.2) ++ [default]).find? fun target => !(target < length)).map .switchTarget
  | _ => none

def stmtDefect? (listing : Listing) (length : Nat) (stmt : Stmt) : Option StmtDefect :=
  match (stmt.uses ++ stmt.writes?.toList).find? fun var => !listing.hasVar var with
  | some var => some (.unknownVar var)
  | none => listing.operandDefect? length stmt

def methodDefect? (listing : Listing) (position : Nat) (method : Method) : Option Defect :=
  if method.id.index ≠ position ∨ !listing.hasClass method.declaringClass then
    some (.malformedMethod method.name)
  else
    match (method.this.toList ++ method.params).find? fun var => !listing.hasVar var with
    | some var => some (.unknownLocal method.name var)
    | none =>
      method.stmts.toList.zipIdx.findSome? fun (stmt, index) =>
        (listing.stmtDefect? method.stmts.size stmt).map (.statement method.name index)

/-- The first rule that the listing breaks. -/
def defect? (listing : Listing) : Option Defect :=
  listing.entryDefect?
    <|> (listing.classes.toList.zipIdx.findSome? fun (c, i) => listing.classDefect? i c)
    <|> listing.classes.toList.findSome? listing.cycleDefect?
    <|> (listing.fields.toList.zipIdx.findSome? fun (f, i) => listing.fieldDefect? i f)
    <|> (listing.vars.toList.zipIdx.findSome? fun (v, i) => listing.varDefect? i v)
    <|> (listing.methods.toList.zipIdx.findSome? fun (m, i) => listing.methodDefect? i m)

end Listing

end ObjectFlow
