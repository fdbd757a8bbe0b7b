import ObjectFlow.Program.Basic

/-!
# Writing a listing step by step

A listing grows from nothing by adding classes, fields, methods, variables and
statements.  A new item takes the next position of its table, so that its handle is
known before it is added and statements can name what was added earlier.  Calls name
their target by class and subsignature, so that the target may come later.
-/

namespace ObjectFlow

/-- The statement with a new target; statements that are no jump and no two-way branch
stay as they are. -/
def Stmt.retarget (target : Nat) : Stmt → Stmt
  | .branch condition _ => .branch condition target
  | .jump _ => .jump target
  | stmt => stmt

/-- The statement of a call. -/
def Stmt.calling (kind : CallKind) (result base : Option VarId) (target : MethodRef)
    (args : List VarId) : Stmt :=
  .invoke { kind, target, base, args, result }

/-- The ways to write a statement that is appended to a body. -/
inductive NewStmt where
  /-- A statement as it stands. -/
  | push (stmt : Stmt)
  | alloc (lhs : VarId) (type : Ty)
  | copy (lhs rhs : VarId)
  | assign (lhs : VarId) (rhs : Exp)
  | const (lhs : VarId) (value : Int32)
  | binary (lhs : VarId) (op : BinaryOp) (a b : VarId)
  | loadField (lhs base : VarId) (field : FieldId)
  | storeField (base : VarId) (field : FieldId) (rhs : VarId)
  | loadStatic (lhs : VarId) (field : FieldId)
  | storeStatic (field : FieldId) (rhs : VarId)
  | loadArray (lhs base index : VarId)
  | storeArray (base index rhs : VarId)
  | invoke (kind : CallKind) (result base : Option VarId) (target : MethodRef) (args : List VarId)
  | invokeStatic (result : Option VarId) (target : MethodRef) (args : List VarId)
  | invokeVirtual (result : Option VarId) (base : VarId) (target : MethodRef) (args : List VarId)
  | invokeInterface (result : Option VarId) (base : VarId) (target : MethodRef)
      (args : List VarId)
  | invokeSpecial (result : Option VarId) (base : VarId) (target : MethodRef) (args : List VarId)
  | branch (condition : Exp) (target : Nat)
  | jump (target : Nat)
  | switch (var : VarId) (cases : List (Int32 × Nat)) (default : Nat)
  | ret (value : Option VarId)
  | nop
  deriving DecidableEq, Repr

/-- The statement that is appended. -/
def NewStmt.stmt : NewStmt → Stmt
  | push stmt => stmt
  | alloc lhs type => .alloc lhs type
  | copy lhs rhs => .copy lhs rhs
  | assign lhs rhs => .assign lhs rhs
  | const lhs value => .assign lhs (.literal value)
  | binary lhs op a b => .assign lhs (.binary op a b)
  | loadField lhs base field => .loadField lhs (some base) field
  | storeField base field rhs => .storeField (some base) field rhs
  | loadStatic lhs field => .loadField lhs none field
  | storeStatic field rhs => .storeField none field rhs
  | loadArray lhs base index => .loadArray lhs base index
  | storeArray base index rhs => .storeArray base index rhs
  | invoke kind result base target args => .calling kind result base target args
  | invokeStatic result target args => .calling .static result none target args
  | invokeVirtual result base target args => .calling .virtual result (some base) target args
  | invokeInterface result base target args => .calling .interface result (some base) target args
  | invokeSpecial result base target args => .calling .special result (some base) target args
  | branch condition target => .branch condition target
  | jump target => .jump target
  | switch var cases default => .switch var cases default
  | ret value => .ret value
  | nop => .nop

/-- How a method is declared. -/
inductive MethodForm where
  /-- A body that runs on a receiver. -/
  | concrete
  /-- A body without receiver. -/
  | static
  /-- A receiver, but no body to run. -/
  | abstract
  deriving DecidableEq, Repr

namespace Listing

/-- The handle of the class that is added next. -/
def nextClass (listing : Listing) : ClassId := ⟨listing.classes.size⟩

/-- The handle of the method that is added next. -/
def nextMethod (listing : Listing) : MethodId := ⟨listing.methods.size⟩

/-- The handle of the field that is added next. -/
def nextField (listing : Listing) : FieldId := ⟨listing.fields.size⟩

/-- The handle of the variable that is added next. -/
def nextVar (listing : Listing) : VarId := ⟨listing.vars.size⟩

/-- Changes one entry of a table. -/
def edit {kind : Kind} {α : Type} (id : Handle kind) (change : α → α) (table : Array α) :
    Except Fault (Array α) := do
  let _ ← id.lookup table
  return table.modify id.index change

/-- Changes one class. -/
def editClass (listing : Listing) (id : ClassId) (change : Class → Class) :
    Except Fault Listing := do
  return { listing with classes := ← edit id change listing.classes }

/-- Changes one method. -/
def editMethod (listing : Listing) (id : MethodId) (change : Method → Method) :
    Except Fault Listing := do
  return { listing with methods := ← edit id change listing.methods }

/-- Adds a class that can have instances. -/
def addClass (listing : Listing) (name : String) (superClass : Option ClassId) : Listing :=
  { listing with
    classes := listing.classes.push {
      id := listing.nextClass, name, superClass, interfaces := [], isInterface := false,
      isAbstract := false, methods := [] } }

def addAbstractClass (listing : Listing) (name : String) (superClass : Option ClassId) :
    Listing :=
  { listing with
    classes := listing.classes.push {
      id := listing.nextClass, name, superClass, interfaces := [], isInterface := false,
      isAbstract := true, methods := [] } }

/-- Adds an interface that extends other ones. -/
def addInterface (listing : Listing) (name : String) (interfaces : List ClassId) : Listing :=
  { listing with
    classes := listing.classes.push {
      id := listing.nextClass, name, superClass := none, interfaces, isInterface := true,
      isAbstract := true, methods := [] } }

/-- Notes once that a class implements an interface. -/
def implement (listing : Listing) (id interface : ClassId) : Except Fault Listing :=
  listing.editClass id fun c =>
    if c.interfaces.contains interface then c
    else { c with interfaces := c.interfaces ++ [interface] }

def addField (listing : Listing) (declaringClass : ClassId) (name : String) (type : Ty)
    (isStatic : Bool) : Listing :=
  { listing with
    fields := listing.fields.push { id := listing.nextField, name, declaringClass, type, isStatic } }

/-- Adds a local variable of a method. -/
def addVar (listing : Listing) (method : MethodId) (name : String) (type : Ty) : Listing :=
  { listing with vars := listing.vars.push { id := listing.nextVar, name, type, method } }

/-- Adds the next parameter of a method. -/
def addParam (listing : Listing) (method : MethodId) (name : String) (type : Ty) :
    Except Fault Listing :=
  (listing.addVar method name type).editMethod method fun m =>
    { m with params := m.params ++ [listing.nextVar] }

/-- Adds a method without statements to a class.  Where there is a receiver, the
variable that holds it is added too. -/
def addMethod (listing : Listing) (form : MethodForm) (declaringClass : ClassId)
    (name subsignature : String) : Except Fault Listing := do
  let id := listing.nextMethod
  let isStatic := form == .static
  let isAbstract := form == .abstract
  let this := if isStatic then none else some listing.nextVar
  let listing := { listing with
    methods := listing.methods.push {
      id, name, declaringClass, subsignature, isStatic, isAbstract, this, params := [],
      stmts := #[] } }
  let listing ← listing.editClass declaringClass fun c => { c with methods := c.methods ++ [id] }
  return if isStatic then listing else listing.addVar id "this" (.object declaringClass)

/-- The number of statements of a method, which is the position of the next one. -/
def nextIndex (listing : Listing) (method : MethodId) : Except Fault Nat := do
  return (← method.lookup listing.methods).stmts.size

/-- Adds a statement to a method. -/
def addStmt (listing : Listing) (method : MethodId) (new : NewStmt) : Except Fault Listing :=
  listing.editMethod method fun m => { m with stmts := m.stmts.push new.stmt }

/-- Sends an earlier jump or two-way branch to another target. -/
def setTarget (listing : Listing) (site : Site) (target : Nat) : Except Fault Listing := do
  let method ← site.method.lookup listing.methods
  if site.index < method.stmts.size then
    listing.editMethod site.method fun m =>
      { m with stmts := m.stmts.modify site.index (Stmt.retarget target) }
  else .error (.statement site)

/-- Notes once that a run may start in a method. -/
def addEntry (listing : Listing) (method : MethodId) : Listing :=
  if listing.entries.contains method then listing
  else { listing with entries := listing.entries ++ [method] }

end Listing

end ObjectFlow
