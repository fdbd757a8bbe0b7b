import ObjectFlow.Interner
import ObjectFlow.Program.Statement

/-!
# Abstract objects

All objects that one allocation statement creates are one abstract object.
-/

namespace ObjectFlow.PointsTo

/-- An abstract object: where it is allocated, and its type. -/
structure Obj where
  alloc : Site
  type : Ty
  deriving DecidableEq, Repr

/-- Objects are told apart by their allocation. -/
instance : Key Obj := ⟨fun object => code object.alloc⟩

/-- The abstract objects, in the order in which they were first asked for. -/
structure Heap where
  objects : Interner Obj := .empty

namespace Heap

def size (heap : Heap) : Nat := heap.objects.size

/-- The object of an allocation; the type counts only when the object is new. -/
def objFor (heap : Heap) (alloc : Site) (type : Ty) : Heap × ObjId :=
  let number := heap.objects.numberOf ⟨alloc, type⟩
  (⟨heap.objects.insert ⟨alloc, type⟩⟩, ⟨number⟩)

def get (heap : Heap) (id : ObjId) : Except Fault Obj := id.lookup heap.objects.items

end Heap

end ObjectFlow.PointsTo
