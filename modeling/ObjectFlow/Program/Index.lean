import ObjectFlow.Program.Listing

/-!
# The index of a listing

The analyses ask again and again which statements go through a variable, which
classes extend a class and which method a class declares.  The index answers this
from tables that one walk over the listing fills.
-/

namespace ObjectFlow

/-- The statements that go through one variable, by what they do with it. -/
structure Uses where
  /-- `x = v.f` -/
  loadFields : List Site := []
  /-- `v.f = x` -/
  storeFields : List Site := []
  /-- `x = v[i]` -/
  loadArrays : List Site := []
  /-- `v[i] = x` -/
  storeArrays : List Site := []
  /-- `v.m(…)` -/
  invokes : List Site := []
  deriving DecidableEq, Repr

structure Index where
  /-- The classes that extend a class. -/
  subclasses : Array (List ClassId)
  /-- The interfaces that extend an interface. -/
  subinterfaces : Array (List ClassId)
  /-- The classes that implement an interface. -/
  implementors : Array (List ClassId)
  /-- The methods that a class declares, the last one first. -/
  declared : Array (List (String × MethodId))
  uses : Array Uses
  staticLoads : Array (List Site)
  staticStores : Array (List Site)
  /-- The variables that a method returns, each once. -/
  returns : Array (List VarId)

namespace Index

/-- Appends an item to the list of a handle. -/
def append {kind : Kind} {α : Type} (table : Array (List α)) (handle : Handle kind) (item : α) :
    Array (List α) :=
  table.modify handle.index (· ++ [item])

/-- An index that has seen nothing, with a row for every entry of the listing. -/
def empty (listing : Listing) : Index where
  subclasses := Array.replicate listing.classes.size []
  subinterfaces := Array.replicate listing.classes.size []
  implementors := Array.replicate listing.classes.size []
  declared := Array.replicate listing.classes.size []
  uses := Array.replicate listing.vars.size {}
  staticLoads := Array.replicate listing.fields.size []
  staticStores := Array.replicate listing.fields.size []
  returns := Array.replicate listing.methods.size []

/-- Notes one interface of a class. -/
def addInterface (c : Class) (index : Index) (parent : ClassId) : Index :=
  if c.isInterface then { index with subinterfaces := append index.subinterfaces parent c.id }
  else { index with implementors := append index.implementors parent c.id }

/-- Notes whom a class extends and implements. -/
def addClass (index : Index) (c : Class) : Index :=
  let index :=
    match c.superClass with
    | some parent => { index with subclasses := append index.subclasses parent c.id }
    | none => index
  c.interfaces.foldl (addInterface c) index

/-- Changes what is known about a variable. -/
def updateUses (index : Index) (var : VarId) (change : Uses → Uses) : Index :=
  { index with uses := index.uses.modify var.index change }

/-- Notes what a statement goes through, or returns. -/
def addStmt (index : Index) : Site × Stmt → Index
  | (site, .loadField _ (some base) _) =>
    index.updateUses base fun u => { u with loadFields := u.loadFields ++ [site] }
  | (site, .loadField _ none field) =>
    { index with staticLoads := append index.staticLoads field site }
  | (site, .storeField (some base) _ _) =>
    index.updateUses base fun u => { u with storeFields := u.storeFields ++ [site] }
  | (site, .storeField none field _) =>
    { index with staticStores := append index.staticStores field site }
  | (site, .loadArray _ base _) =>
    index.updateUses base fun u => { u with loadArrays := u.loadArrays ++ [site] }
  | (site, .storeArray base _ _) =>
    index.updateUses base fun u => { u with storeArrays := u.storeArrays ++ [site] }
  | (site, .invoke call) =>
    match call.base with
    | some base => index.updateUses base fun u => { u with invokes := u.invokes ++ [site] }
    | none => index
  | (site, .ret (some value)) =>
    { index with
      returns := index.returns.modify site.method.index fun known =>
        if known.contains value then known else known ++ [value] }
  | _ => index

/-- Notes where a method is declared, and its statements. -/
def addMethod (index : Index) (method : Method) : Index :=
  let index :=
    { index with
      declared := index.declared.modify method.declaringClass.index
        ((method.subsignature, method.id) :: ·) }
  method.sites.foldl addStmt index

/-- The index of a listing. -/
def ofListing (listing : Listing) : Index :=
  listing.methods.foldl addMethod (listing.classes.foldl addClass (empty listing))

end Index

end ObjectFlow
