import ObjectFlow.Config.Stage
import ObjectFlow.Handle
import ObjectFlow.Interner

/-!
# Contexts

A context says how a method was reached: it is a short sequence of call sites, of
receivers or of classes, oldest first.  Contexts are interned; the empty one comes
first.  A policy says which context a call gives to its callee and which one an
allocation gives to its object.
-/

namespace ObjectFlow.PointsTo

/-- One part of a context. -/
inductive ContextElem where
  | callSite (site : Site)
  | object (object : ObjId)
  | type (type : ClassId)
  deriving DecidableEq, Repr

/-- Every part takes three numbers. -/
def ContextElem.code : ContextElem → List Nat
  | callSite site => [0, site.method.index, site.index]
  | object id => [1, id.index, 0]
  | type id => [2, id.index, 0]

theorem ContextElem.code_append_injective {a b : ContextElem} {s t : List Nat}
    (h : a.code ++ s = b.code ++ t) : a = b ∧ s = t := by
  cases a with
  | callSite x =>
    obtain ⟨⟨m⟩, i⟩ := x
    cases b with
    | callSite y =>
      obtain ⟨⟨n⟩, j⟩ := y
      simpa [ContextElem.code, and_assoc] using h
    | object y => simp [ContextElem.code] at h
    | type y => simp [ContextElem.code] at h
  | object x =>
    obtain ⟨x⟩ := x
    cases b with
    | callSite y => simp [ContextElem.code] at h
    | object y =>
      obtain ⟨y⟩ := y
      simpa [ContextElem.code] using h
    | type y => simp [ContextElem.code] at h
  | type x =>
    obtain ⟨x⟩ := x
    cases b with
    | callSite y => simp [ContextElem.code] at h
    | object y => simp [ContextElem.code] at h
    | type y =>
      obtain ⟨y⟩ := y
      simpa [ContextElem.code] using h

theorem ContextElem.code_ne_nil (a : ContextElem) (s : List Nat) : a.code ++ s ≠ [] := by
  cases a <;> simp [ContextElem.code]

instance : Key (List ContextElem) := ⟨fun elems => elems.flatMap ContextElem.code⟩

instance : LawfulKey (List ContextElem) where
  code_injective {a b} h := by
    simp only [Key.code] at h
    induction a generalizing b with
    | nil =>
      cases b with
      | nil => rfl
      | cons y b => exact absurd h.symm (ContextElem.code_ne_nil y _)
    | cons x a ih =>
      cases b with
      | nil => exact absurd h (ContextElem.code_ne_nil x _)
      | cons y b =>
        obtain ⟨hhead, htail⟩ := ContextElem.code_append_injective h
        rw [hhead, ih htail]

/-- The table of contexts. -/
structure Contexts where
  table : Interner (List ContextElem) := .ofList [[]]
  /-- The empty context comes first. -/
  root_eq : table.items[0]? = some [] := by rfl

namespace Contexts

/-- The table of the empty context alone. -/
def initial : Contexts := {}

/-- The empty context. -/
def root : ContextId := ⟨0⟩

def size (contexts : Contexts) : Nat := contexts.table.size

/-- The handle of a sequence. -/
def intern (contexts : Contexts) (elems : List ContextElem) : Contexts × ContextId :=
  let number := contexts.table.numberOf elems
  (⟨contexts.table.insert elems, Interner.getElem?_items_insert contexts.root_eq elems⟩, ⟨number⟩)

/-- The sequence of a context, oldest part first. -/
def elements (contexts : Contexts) (context : ContextId) : Except Fault (List ContextElem) :=
  context.lookup contexts.table.items

/-- The last `limit` parts of a sequence. -/
def lastOf {ε : Type} (limit : Nat) (elems : List ε) : List ε :=
  elems.drop (elems.length - limit)

/-- A context with one more part, cut to its last `limit` parts. -/
def append (contexts : Contexts) (context : ContextId) (elem : ContextElem) (limit : Nat) :
    Except Fault (Contexts × ContextId) :=
  if limit = 0 then .ok (contexts, root)
  else do
    let elems ← contexts.elements context
    return contexts.intern (lastOf limit (elems ++ [elem]))

/-- A context cut to its last `limit` parts. -/
def truncate (contexts : Contexts) (context : ContextId) (limit : Nat) :
    Except Fault (Contexts × ContextId) := do
  let elems ← contexts.elements context
  if elems.length ≤ limit then return (contexts, context)
  else return contexts.intern (lastOf limit elems)

end Contexts

/-- The receiver of a call. -/
structure Receiver where
  /-- The context of the receiver. -/
  heapContext : ContextId
  object : ObjId
  /-- The class whose method allocated the receiver. -/
  allocClass : ClassId
  deriving DecidableEq, Repr

/-- How contexts are chosen. -/
structure Policy where
  strategy : Config.Strategy
  heapDepth : Nat
  deriving DecidableEq, Repr

namespace Policy

def ofConfig (config : Config.PointsTo) : Policy :=
  ⟨config.context, config.effectiveHeapDepth⟩

/-- The context of an object that a method allocates. -/
def heapContext (policy : Policy) (contexts : Contexts) (context : ContextId) :
    Except Fault (Contexts × ContextId) :=
  match policy.strategy with
  | .insensitive => .ok (contexts, Contexts.root)
  | _ => contexts.truncate context policy.heapDepth

/-- The context of a method that is called without receiver. -/
def staticContext (policy : Policy) (contexts : Contexts) (context : ContextId) (site : Site) :
    Except Fault (Contexts × ContextId) :=
  match policy.strategy with
  | .insensitive => .ok (contexts, Contexts.root)
  | .callSite k => contexts.append context (.callSite site) k
  | .object _ => .ok (contexts, context)
  | .type _ => .ok (contexts, context)

/-- The context of a method that is called on a receiver. -/
def instanceContext (policy : Policy) (contexts : Contexts) (context : ContextId) (site : Site)
    (receiver : Receiver) : Except Fault (Contexts × ContextId) :=
  match policy.strategy with
  | .insensitive => .ok (contexts, Contexts.root)
  | .callSite k => contexts.append context (.callSite site) k
  | .object k => contexts.append receiver.heapContext (.object receiver.object) k
  | .type k => contexts.append receiver.heapContext (.type receiver.allocClass) k

end Policy

end ObjectFlow.PointsTo
