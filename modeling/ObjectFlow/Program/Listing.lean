import ObjectFlow.Program.Statement

/-!
# Program listings

A listing is a whole program as it is written down: the tables of its classes,
methods, fields and variables, and the methods where a run may start.  Nothing is
checked yet; every handle may be wrong.
-/

namespace ObjectFlow

/-- A class or an interface. -/
structure Class where
  id : ClassId
  name : String
  superClass : Option ClassId
  /-- The interfaces that a class implements or that an interface extends. -/
  interfaces : List ClassId
  isInterface : Bool
  isAbstract : Bool
  methods : List MethodId
  deriving DecidableEq, Repr

structure Field where
  id : FieldId
  name : String
  declaringClass : ClassId
  type : Ty
  isStatic : Bool
  deriving DecidableEq, Repr

structure Var where
  id : VarId
  name : String
  type : Ty
  method : MethodId
  deriving DecidableEq, Repr

structure Method where
  id : MethodId
  name : String
  declaringClass : ClassId
  subsignature : String
  isStatic : Bool
  isAbstract : Bool
  /-- The variable that holds the receiver. -/
  this : Option VarId
  params : List VarId
  stmts : Array Stmt
  deriving DecidableEq, Repr

namespace Method

/-- The statements with their sites, in order. -/
def sites (method : Method) : List (Site × Stmt) :=
  method.stmts.toList.zipIdx.map fun (stmt, index) => (⟨method.id, index⟩, stmt)

/-- The calls with their sites, in order. -/
def callSites (method : Method) : List (Site × Call) :=
  method.sites.filterMap fun (site, stmt) => stmt.call?.map (site, ·)

end Method

structure Listing where
  classes : Array Class := #[]
  methods : Array Method := #[]
  fields : Array Field := #[]
  vars : Array Var := #[]
  entries : List MethodId := []
  deriving DecidableEq, Repr

namespace Listing

/-- The statements of the whole program, in the order of the methods. -/
def sites (listing : Listing) : List (Site × Stmt) :=
  listing.methods.toList.flatMap Method.sites

/-- The number of things that the listing holds. -/
def size (listing : Listing) : Nat :=
  listing.classes.size + listing.methods.size + listing.fields.size + listing.vars.size +
    listing.entries.length + listing.sites.length +
    (listing.classes.toList.flatMap Class.interfaces).length +
    (listing.sites.flatMap fun (_, stmt) => stmt.uses).length

end Listing

end ObjectFlow
