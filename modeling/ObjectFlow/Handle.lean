/-!
# Handles

Classes, methods, fields and variables of a program, and the contexts, objects and
pointers that an analysis creates, live in tables and are named by their position.
A handle is such a position together with the kind of table it belongs to.

Positions are natural numbers.  They stand for numbers of 32 bits, which they agree with as
long as no table has `2 ^ 32` rows or more.
-/

namespace ObjectFlow

/-- The tables that handles point into. -/
inductive Kind where
  | classes
  | methods
  | fields
  | vars
  | contexts
  | objects
  | pointers
  | contextObjects
  deriving DecidableEq, Repr

/-- The word that stands before the number in the text of a handle. -/
def Kind.label : Kind → String
  | classes => "class"
  | methods => "method"
  | fields => "field"
  | vars => "var"
  | contexts => "ctx"
  | objects => "obj"
  | pointers => "ptr"
  | contextObjects => "csobj"

/-- A position in a table of the given kind, which has fewer than `2 ^ 32` rows. -/
structure Handle (kind : Kind) where
  index : Nat
  deriving DecidableEq, Repr

namespace Handle

variable {kind : Kind}

instance : LT (Handle kind) := ⟨fun a b => a.index < b.index⟩

instance : LE (Handle kind) := ⟨fun a b => a.index ≤ b.index⟩

instance : DecidableLT (Handle kind) := fun a b => inferInstanceAs (Decidable (a.index < b.index))

instance : DecidableLE (Handle kind) := fun a b => inferInstanceAs (Decidable (a.index ≤ b.index))

/-- The text of a handle, such as `class#3`. -/
def text (handle : Handle kind) : String :=
  kind.label ++ "#" ++ toString handle.index

end Handle

abbrev ClassId := Handle .classes
abbrev MethodId := Handle .methods
abbrev FieldId := Handle .fields
abbrev VarId := Handle .vars
abbrev ContextId := Handle .contexts
abbrev ObjId := Handle .objects
abbrev PointerId := Handle .pointers
abbrev CsObjId := Handle .contextObjects

/-- A statement of a program: the method that owns it and its position there.  Like a table,
a method has fewer than `2 ^ 32` statements. -/
structure Site where
  method : MethodId
  index : Nat
  deriving DecidableEq, Repr

namespace Site

/-- Sites are ordered by method and then by position. -/
instance : LT Site := ⟨fun a b => a.method < b.method ∨ (a.method = b.method ∧ a.index < b.index)⟩

instance : DecidableLT Site := fun a b =>
  inferInstanceAs (Decidable (a.method < b.method ∨ (a.method = b.method ∧ a.index < b.index)))

/-- The text of a site, such as `method#0@4`. -/
def text (site : Site) : String :=
  site.method.text ++ "@" ++ toString site.index

end Site

/-- A look-up past the end of a table, or past the last statement of a method. -/
inductive Fault where
  | entry (kind : Kind) (index : Nat)
  | statement (site : Site)
  deriving DecidableEq, Repr

/-- The entry of a table that a handle names. -/
def Handle.lookup {kind : Kind} {α : Type} (handle : Handle kind) (table : Array α) :
    Except Fault α :=
  match table[handle.index]? with
  | some entry => .ok entry
  | none => .error (.entry kind handle.index)

end ObjectFlow
