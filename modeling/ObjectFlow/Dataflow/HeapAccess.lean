import ObjectFlow.Dataflow.Supergraph
import ObjectFlow.PointsTo.Result
import ObjectFlow.Table

/-!
# Heap accesses that may meet

A load may see what a store has written when both go to the same field, or both to
array slots, of a common object.  The pairs are computed once from a points-to result.
The accesses are put into buckets by what they do to which object, and then each of them
finds the accesses that it may meet in the buckets for the converse.
-/

namespace ObjectFlow.Dataflow

/-- What a statement does to an object. -/
inductive HeapAccess where
  | loadField (field : FieldId)
  | storeField (field : FieldId)
  | loadSlot
  | storeSlot
  deriving DecidableEq, Repr

namespace HeapAccess

/-- The access of a statement, with the variable that it goes through. -/
def ofStmt? : Stmt → Option (VarId × HeapAccess)
  | .loadField _ (some base) field => some (base, .loadField field)
  | .storeField (some base) field _ => some (base, .storeField field)
  | .loadArray _ base _ => some (base, .loadSlot)
  | .storeArray base _ _ => some (base, .storeSlot)
  | _ => none

/-- The access that this one meets on a common object. -/
def partner : HeapAccess → HeapAccess
  | loadField field => storeField field
  | storeField field => loadField field
  | loadSlot => storeSlot
  | storeSlot => loadSlot

end HeapAccess

/-- A heap access in the program, with the objects that it may go to. -/
structure Accessor where
  site : Site
  access : HeapAccess
  objects : List ObjId
  deriving DecidableEq, Repr

/-- The heap accesses of the methods of a supergraph. -/
def accessors (graph : Supergraph) (result : PointsTo.Result) : Except Fault (List Accessor) :=
  let found := graph.cfgs.flatMap fun cfg =>
    cfg.stmts.toList.zipIdx.filterMap fun (stmt, index) =>
      (HeapAccess.ofStmt? stmt).map fun (base, access) =>
        ((⟨cfg.method, index⟩ : Site), base, access)
  found.mapM fun (site, base, access) => return ⟨site, access, ← result.pointsTo base⟩

/-- The sites that do the same to the same object, in the order in which they were found. -/
structure HeapBuckets where
  table : Table (ObjId × HeapAccess) (List Site) := {}
  deriving DecidableEq, Repr

namespace HeapBuckets

/-- The sites of an access to an object. -/
def sitesOf (buckets : HeapBuckets) (object : ObjId) (access : HeapAccess) : List Site :=
  (buckets.table.get? (object, access)).getD []

def addSite (buckets : HeapBuckets) (site : Site) (access : HeapAccess) (object : ObjId) :
    HeapBuckets :=
  ⟨buckets.table.set (object, access) (buckets.sitesOf object access ++ [site])⟩

/-- Adds an access to the buckets of its objects. -/
def add (buckets : HeapBuckets) (accessor : Accessor) : HeapBuckets :=
  accessor.objects.foldl (fun buckets => buckets.addSite accessor.site accessor.access) buckets

def ofAccessors (accessors : List Accessor) : HeapBuckets := accessors.foldl add {}

/-- The sites that do the converse to an object of an access, in ascending order. -/
def partners (buckets : HeapBuckets) (accessor : Accessor) : List Site :=
  (SortedSet.ofList (accessor.objects.flatMap fun object =>
    buckets.sitesOf object accessor.access.partner)).toList

end HeapBuckets

/-- The accesses that each access may meet, in ascending order; an access that meets none has no
row. -/
structure HeapAliases where
  table : Table Site (List Site) := {}
  deriving DecidableEq, Repr

namespace HeapAliases

/-- Notes the accesses that an access may meet. -/
def add (buckets : HeapBuckets) (aliases : HeapAliases) (accessor : Accessor) : HeapAliases :=
  let partners := buckets.partners accessor
  if partners.isEmpty then aliases else ⟨aliases.table.set accessor.site partners⟩

/-- Pairs the accesses of a supergraph, once all of them are in their buckets. -/
def build (graph : Supergraph) (result : PointsTo.Result) : Except Fault HeapAliases := do
  let accessors ← accessors graph result
  return accessors.foldl (add (.ofAccessors accessors)) {}

/-- The accesses that an access may meet. -/
def partnersOf (aliases : HeapAliases) (site : Site) : List Site :=
  (aliases.table.get? site).getD []

end HeapAliases

end ObjectFlow.Dataflow
