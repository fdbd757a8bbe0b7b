import ObjectFlow.Handle
import ObjectFlow.Interner
import ObjectFlow.SortedSet

/-!
# Pointers

Whatever can hold a reference is a pointer: a variable under a context, a static
field, a field of an object, or the slots of an array taken together.  Pointers are
interned, and each has a set of objects that it may point to.
-/

namespace ObjectFlow.PointsTo

/-- An abstract object under a context. -/
structure CsObj where
  context : ContextId
  object : ObjId
  deriving DecidableEq, Repr

instance : Key CsObj := ⟨fun object => [object.context.index, object.object.index]⟩

instance : LawfulKey CsObj where
  code_injective {a b} h := by
    rcases a with ⟨⟨c⟩, ⟨o⟩⟩
    rcases b with ⟨⟨d⟩, ⟨p⟩⟩
    simpa [Key.code] using h

/-- A method under a context. -/
structure CsMethod where
  context : ContextId
  method : MethodId
  deriving DecidableEq, Repr

instance : Key CsMethod := ⟨fun method => [method.context.index, method.method.index]⟩

instance : LawfulKey CsMethod where
  code_injective {a b} h := by
    rcases a with ⟨⟨c⟩, ⟨m⟩⟩
    rcases b with ⟨⟨d⟩, ⟨n⟩⟩
    simpa [Key.code] using h

def CsMethod.text (method : CsMethod) : String :=
  method.context.text ++ ":" ++ method.method.text

/-- A call site under the context of its method. -/
structure CsSite where
  context : ContextId
  site : Site
  deriving DecidableEq, Repr

instance : Key CsSite := ⟨fun site => [site.context.index, site.site.method.index, site.site.index]⟩

instance : LawfulKey CsSite where
  code_injective {a b} h := by
    rcases a with ⟨⟨c⟩, ⟨⟨m⟩, i⟩⟩
    rcases b with ⟨⟨d⟩, ⟨⟨n⟩, j⟩⟩
    simpa [Key.code] using h

def CsSite.text (site : CsSite) : String := site.context.text ++ ":" ++ site.site.text

/-- What can hold a reference, where contexts are named by `κ` and objects by `ω`. -/
inductive Place (κ ω : Type) where
  | var (context : κ) (var : VarId)
  | staticField (field : FieldId)
  | instanceField (base : ω) (field : FieldId)
  | arraySlots (base : ω)
  deriving DecidableEq, Repr

/-- A place of a run, which names contexts and objects by handles. -/
abbrev Pointer := Place ContextId CsObjId

namespace Pointer

def isVar : Pointer → Bool
  | .var _ _ => true
  | _ => false

def text : Pointer → String
  | .var context v => context.text ++ ":" ++ v.text
  | .staticField field => field.text
  | .instanceField base field => base.text ++ "." ++ field.text
  | .arraySlots base => base.text ++ "[*]"

instance : Key Pointer where
  code
    | .var context v => [0, context.index, v.index]
    | .staticField field => [1, field.index, 0]
    | .instanceField base field => [2, base.index, field.index]
    | .arraySlots base => [3, base.index, 0]

instance : LawfulKey Pointer where
  code_injective {a b} h := by
    rcases a with ⟨⟨c⟩, ⟨v⟩⟩ | ⟨⟨f⟩⟩ | ⟨⟨o⟩, ⟨f⟩⟩ | ⟨⟨o⟩⟩ <;>
      rcases b with ⟨⟨d⟩, ⟨w⟩⟩ | ⟨⟨g⟩⟩ | ⟨⟨p⟩, ⟨g⟩⟩ | ⟨⟨p⟩⟩ <;>
      simp_all [Key.code]

end Pointer

/-- What a pointer may point to. -/
abbrev PointsToSet := SortedSet CsObjId

/-- The pointers with their sets, in the order in which they were first asked for. -/
structure Pointers where
  names : Interner Pointer := .empty
  sets : Array PointsToSet := #[]
  /-- Every pointer has one set. -/
  size_sets : sets.size = names.size := by rfl

namespace Pointers

/-- No pointer was asked for yet. -/
def empty : Pointers := {}

@[simp]
theorem names_empty : empty.names = .empty := rfl

@[simp]
theorem sets_empty : empty.sets = #[] := rfl

def size (pointers : Pointers) : Nat := pointers.names.size

def find? (pointers : Pointers) (pointer : Pointer) : Option PointerId :=
  (pointers.names.find? pointer).map Handle.mk

/-- The handle that a pointer has, or would get as the next one. -/
def idOf (pointers : Pointers) (pointer : Pointer) : PointerId := ⟨pointers.names.numberOf pointer⟩

/-- Adds a pointer with an empty set unless it is there. -/
def insert (pointers : Pointers) (pointer : Pointer) : Pointers :=
  if h : pointers.names.contains pointer then pointers
  else
    { names := pointers.names.insert pointer
      sets := pointers.sets.push {}
      size_sets := by
        simp [Interner.size, Interner.items_insert, h, pointers.size_sets] }

def get (pointers : Pointers) (id : PointerId) : Except Fault Pointer :=
  id.lookup pointers.names.items

def getSet (pointers : Pointers) (id : PointerId) : Except Fault PointsToSet :=
  id.lookup pointers.sets

/-- The objects that are not yet in the set of a pointer. -/
def newObjects (pointers : Pointers) (id : PointerId) (objects : PointsToSet) :
    Except Fault PointsToSet := do
  return objects.difference (← pointers.getSet id)

/-- Adds objects to the set of a pointer. -/
def add (pointers : Pointers) (id : PointerId) (objects : PointsToSet) : Pointers :=
  { pointers with
    sets := pointers.sets.modify id.index (·.union objects)
    size_sets := by simp [pointers.size_sets] }

/-- The set of a pointer, empty when the pointer was never asked for. -/
def setOf (pointers : Pointers) (pointer : Pointer) : PointsToSet :=
  match pointers.find? pointer with
  | some id => pointers.sets[id.index]?.getD {}
  | none => {}

/-- The pointers with their sets. -/
def toList (pointers : Pointers) : List (Pointer × PointsToSet) :=
  pointers.names.toList.zip pointers.sets.toList

end Pointers

end ObjectFlow.PointsTo
