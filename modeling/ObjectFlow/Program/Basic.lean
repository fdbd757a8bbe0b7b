import ObjectFlow.Program.Defect
import ObjectFlow.Program.Index

/-!
# Programs

A program is a listing without defects, together with its index.  Its tables are read
by handle; a handle past the end of its table is a fault.  What the index knows about
a handle it has never seen is nothing.
-/

namespace ObjectFlow

structure Program where
  listing : Listing
  sound : listing.defect? = none
  index : Index
  index_eq : index = Index.ofListing listing

namespace Program

/-- Checks and indexes a listing. -/
def ofListing (listing : Listing) : Except Defect Program :=
  match h : listing.defect? with
  | some defect => .error defect
  | none =>
    .ok { listing, sound := h, index := Index.ofListing listing, index_eq := rfl }

/-- The methods where a run may start. -/
def entries (program : Program) : List MethodId := program.listing.entries

def getClass (program : Program) (id : ClassId) : Except Fault Class :=
  id.lookup program.listing.classes

def getMethod (program : Program) (id : MethodId) : Except Fault Method :=
  id.lookup program.listing.methods

def getField (program : Program) (id : FieldId) : Except Fault Field :=
  id.lookup program.listing.fields

def getVar (program : Program) (id : VarId) : Except Fault Var :=
  id.lookup program.listing.vars

def getStmt (program : Program) (site : Site) : Except Fault Stmt := do
  let method ← program.getMethod site.method
  match method.stmts[site.index]? with
  | some stmt => .ok stmt
  | none => .error (.statement site)

/-- The first class with a name. -/
def classNamed? (program : Program) (name : String) : Option ClassId :=
  (program.listing.classes.find? fun c => c.name == name).map Class.id

/-- The first method with a name among those that the first class with a name lists. -/
def methodNamed? (program : Program) (className name : String) : Option MethodId := do
  let c ← program.listing.classes.find? fun c => c.name == className
  c.methods.find? fun id =>
    program.listing.methods[id.index]?.any fun method => method.name == name

/-- The first variable of a method with a name. -/
def varNamed? (program : Program) (method : MethodId) (name : String) : Option VarId :=
  (program.listing.vars.find? fun var => var.method == method && var.name == name).map Var.id

/-- The statements that go through a variable. -/
def uses (program : Program) (var : VarId) : Uses :=
  program.index.uses[var.index]?.getD {}

/-- The variables that a method returns. -/
def returnVars (program : Program) (method : MethodId) : Except Fault (List VarId) :=
  method.lookup program.index.returns

/-- The loads of a static field. -/
def staticLoads (program : Program) (field : FieldId) : List Site :=
  program.index.staticLoads[field.index]?.getD []

/-- The stores into a static field. -/
def staticStores (program : Program) (field : FieldId) : List Site :=
  program.index.staticStores[field.index]?.getD []

/-- The classes that extend a class. -/
def subclasses (program : Program) (id : ClassId) : List ClassId :=
  program.index.subclasses[id.index]?.getD []

/-- The interfaces that extend an interface. -/
def subinterfaces (program : Program) (id : ClassId) : List ClassId :=
  program.index.subinterfaces[id.index]?.getD []

/-- The classes that implement an interface. -/
def implementors (program : Program) (id : ClassId) : List ClassId :=
  program.index.implementors[id.index]?.getD []

/-- The method that a class itself declares; of several with one subsignature, the
last. -/
def declared? (program : Program) (id : ClassId) (subsignature : String) : Option MethodId :=
  (program.index.declared[id.index]?.getD []).lookup subsignature

end Program

end ObjectFlow
