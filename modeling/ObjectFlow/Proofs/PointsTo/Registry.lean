import Mathlib.Data.List.DropRight
import ObjectFlow.PointsTo.Heap
import ObjectFlow.PointsTo.Pointer
import ObjectFlow.Proofs.PointsTo.Change
import ObjectFlow.Proofs.PointsTo.Selection

/-!
# Handles are numbers for what they stand for

The solver names contexts, objects and pointers by handles, and never compares anything else.
This is right when the tables behind the handles are bijections, whatever was asked of them and
in which order: the same thing has the same handle, different things have different ones, a
handle keeps its meaning, and no number is left out.  Contexts can also be asked for by what is
appended to another one or cut from it, sometimes without a look into the table.  A session of
requests with their answers tells all of this in one place.
-/

namespace ObjectFlow.PointsTo

/-- Every pointer has one set. -/
theorem Pointers.exists_get_iff {pointers : Pointers} {id : PointerId} :
    (∃ place, pointers.get id = .ok place) ↔ ∃ set, pointers.getSet id = .ok set := by
  simp [get, getSet, Handle.lookup_eq_ok_iff, Array.getElem?_eq_some_iff, pointers.size_sets,
    Interner.size]

/-- The tables that give handles to contexts, abstract objects, objects under contexts and
pointers. -/
structure Registry where
  contexts : Contexts := .initial
  heap : Heap := {}
  csObjects : Interner CsObj := .empty
  pointers : Pointers := .empty

namespace Registry

/-- What the tables can be asked for. -/
inductive Request where
  | context (parts : List ContextElem)
  | append (context : ContextId) (part : ContextElem) (limit : Nat)
  | truncate (context : ContextId) (limit : Nat)
  | object (alloc : Site) (type : Ty)
  | csObject (object : CsObj)
  | pointer (place : Pointer)
  /-- More objects for the set of a pointer. -/
  | add (id : PointerId) (objects : PointsToSet)
  deriving DecidableEq, Repr

/-- A handle into one of the tables. -/
inductive Ref where
  | context (id : ContextId)
  | object (id : ObjId)
  | csObject (id : CsObjId)
  | pointer (id : PointerId)
  deriving DecidableEq, Repr

/-- What a handle stands for.  An abstract object is told by its allocation alone. -/
inductive Subject where
  | context (parts : List ContextElem)
  | object (alloc : Site)
  | csObject (object : CsObj)
  | pointer (place : Pointer)
  deriving DecidableEq, Repr

/-- Answers a request with a handle. -/
def serve (registry : Registry) : Request → Except Fault (Registry × Ref)
  | .context parts =>
    let (contexts, id) := registry.contexts.intern parts
    return ({ registry with contexts }, .context id)
  | .append context part limit => do
    let (contexts, id) ← registry.contexts.append context part limit
    return ({ registry with contexts }, .context id)
  | .truncate context limit => do
    let (contexts, id) ← registry.contexts.truncate context limit
    return ({ registry with contexts }, .context id)
  | .object alloc type =>
    let (heap, id) := registry.heap.objFor alloc type
    return ({ registry with heap }, .object id)
  | .csObject object =>
    let id : CsObjId := ⟨registry.csObjects.numberOf object⟩
    return ({ registry with csObjects := registry.csObjects.insert object }, .csObject id)
  | .pointer place =>
    let id := registry.pointers.idOf place
    return ({ registry with pointers := registry.pointers.insert place }, .pointer id)
  | .add id objects => do
    let _ ← registry.pointers.newObjects id objects
    return ({ registry with pointers := registry.pointers.add id objects }, .pointer id)

/-- The handles in a request are in range. -/
def Admits (registry : Registry) : Request → Prop
  | .append context _ _ => context.index < registry.contexts.size
  | .truncate context _ => context.index < registry.contexts.size
  | .add id _ => id.index < registry.pointers.size
  | _ => True

instance (registry : Registry) : DecidablePred registry.Admits
  | .append context _ _ => inferInstanceAs (Decidable (context.index < registry.contexts.size))
  | .truncate context _ => inferInstanceAs (Decidable (context.index < registry.contexts.size))
  | .add id _ => inferInstanceAs (Decidable (id.index < registry.pointers.size))
  | .context _ | .object _ _ | .csObject _ | .pointer _ => inferInstanceAs (Decidable True)

/-- From `start` the requests of a log were answered one after another, the last one first in
the log, and led to another registry. -/
inductive Serves (start : Registry) : List (Request × Ref) → Registry → Prop where
  | start : Serves start [] start
  | serve {log : List (Request × Ref)} {registry next : Registry} {request : Request} {ref : Ref}
    (h : Serves start log registry) (hadmits : registry.Admits request)
    (hserve : registry.serve request = .ok (next, ref)) :
    Serves start ((request, ref) :: log) next

/-- What a handle stands for. -/
inductive Names (registry : Registry) : Ref → Subject → Prop where
  | context {id : ContextId} {parts : List ContextElem}
    (h : registry.contexts.elements id = .ok parts) : Names registry (.context id) (.context parts)
  | object {id : ObjId} {object : Obj} (h : registry.heap.get id = .ok object) :
    Names registry (.object id) (.object object.alloc)
  | csObject {id : CsObjId} {object : CsObj}
    (h : id.lookup registry.csObjects.items = .ok object) :
    Names registry (.csObject id) (.csObject object)
  | pointer {id : PointerId} {place : Pointer} (h : registry.pointers.get id = .ok place) :
    Names registry (.pointer id) (.pointer place)

/-- What a request asks for. -/
inductive Asks (registry : Registry) : Request → Subject → Prop where
  | context (parts : List ContextElem) : Asks registry (.context parts) (.context parts)
  | append {context : ContextId} {parts : List ContextElem}
    (h : registry.contexts.elements context = .ok parts) (part : ContextElem) (limit : Nat) :
    Asks registry (.append context part limit) (.context ((parts ++ [part]).rtake limit))
  | truncate {context : ContextId} {parts : List ContextElem}
    (h : registry.contexts.elements context = .ok parts) (limit : Nat) :
    Asks registry (.truncate context limit) (.context (parts.rtake limit))
  | object (alloc : Site) (type : Ty) : Asks registry (.object alloc type) (.object alloc)
  | csObject (object : CsObj) : Asks registry (.csObject object) (.csObject object)
  | pointer (place : Pointer) : Asks registry (.pointer place) (.pointer place)
  | add {id : PointerId} {place : Pointer} (h : registry.pointers.get id = .ok place)
    (objects : PointsToSet) : Asks registry (.add id objects) (.pointer place)

variable {registry next old new : Registry} {request : Request} {ref ref' : Ref}
  {subject subject' : Subject} {log : List (Request × Ref)}

/-! ### Handles and what they stand for -/

/-- A handle stands for one thing only. -/
theorem Names.functional (h : registry.Names ref subject) (h' : registry.Names ref subject') :
    subject = subject' := by
  cases h with
  | context h =>
    cases h' with
    | context h' => rw [Except.ok.inj (h.symm.trans h')]
  | object h =>
    cases h' with
    | object h' => rw [Except.ok.inj (h.symm.trans h')]
  | csObject h =>
    cases h' with
    | csObject h' => rw [Except.ok.inj (h.symm.trans h')]
  | pointer h =>
    cases h' with
    | pointer h' => rw [Except.ok.inj (h.symm.trans h')]

/-- A thing has one handle only. -/
theorem Names.injective (h : registry.Names ref subject) (h' : registry.Names ref' subject) :
    ref = ref' := by
  cases h with
  | context h =>
    cases h' with
    | context h' =>
      rw [Contexts.elements_eq_ok_iff] at h h'
      rw [Contexts.eq_of_getElem? h h']
  | @object id object h =>
    generalize hsubject : Subject.object object.alloc = subject at h'
    cases h' with
    | object h' =>
      have halloc := Subject.object.inj hsubject
      rw [Heap.get, Handle.lookup_eq_ok_iff] at h h'
      rw [Handle.ext (Heap.eq_of_alloc_eq h h' halloc)]
    | _ => cases hsubject
  | csObject h =>
    cases h' with
    | csObject h' =>
      rw [Handle.lookup_eq_ok_iff] at h h'
      rw [Handle.ext (Interner.getElem?_injective h h')]
  | pointer h =>
    cases h' with
    | pointer h' =>
      rw [Pointers.get, Handle.lookup_eq_ok_iff] at h h'
      rw [Handle.ext (Interner.getElem?_injective h h')]

/-- Handles are equal exactly when they stand for the same. -/
theorem Names.eq_iff (h : registry.Names ref subject) (h' : registry.Names ref' subject') :
    ref = ref' ↔ subject = subject' := by
  constructor
  · rintro rfl
    exact h.functional h'
  · rintro rfl
    exact h.injective h'

/-- The number of a handle. -/
def Ref.index : Ref → Nat
  | context id => id.index
  | object id => id.index
  | csObject id => id.index
  | pointer id => id.index

/-- The size of the table that a handle points into. -/
def sizeFor (registry : Registry) : Ref → Nat
  | .context _ => registry.contexts.size
  | .object _ => registry.heap.size
  | .csObject _ => registry.csObjects.size
  | .pointer _ => registry.pointers.size

theorem exists_names_of_lt (h : ref.index < registry.sizeFor ref) :
    ∃ subject, registry.Names ref subject := by
  cases ref with
  | context id =>
    obtain ⟨parts, hparts⟩ := Interner.exists_getElem?_of_lt h
    exact ⟨_, .context (Contexts.elements_eq_ok_iff.mpr hparts)⟩
  | object id =>
    have hlt : id.index < registry.heap.objects.items.size := h
    obtain ⟨object, hobject, -⟩ := Handle.exists_lookup hlt
    exact ⟨_, .object hobject⟩
  | csObject id =>
    have hlt : id.index < registry.csObjects.items.size := h
    obtain ⟨object, hobject, -⟩ := Handle.exists_lookup hlt
    exact ⟨_, .csObject hobject⟩
  | pointer id =>
    have hlt : id.index < registry.pointers.names.items.size := h
    obtain ⟨place, hplace, -⟩ := Handle.exists_lookup hlt
    exact ⟨_, .pointer hplace⟩

theorem Names.index_lt (h : registry.Names ref subject) : ref.index < registry.sizeFor ref := by
  cases h with
  | context h => exact Interner.lt_size_of_getElem? (Contexts.elements_eq_ok_iff.mp h)
  | object h => exact Interner.lt_size_of_getElem? (Handle.lookup_eq_ok_iff.mp h)
  | csObject h => exact Interner.lt_size_of_getElem? (Handle.lookup_eq_ok_iff.mp h)
  | pointer h => exact Interner.lt_size_of_getElem? (Handle.lookup_eq_ok_iff.mp h)

/-- The tables of `new` continue those of `old`. -/
structure Extends (old new : Registry) : Prop where
  contexts : old.contexts.table.Extends new.contexts.table
  heap : old.heap.objects.Extends new.heap.objects
  csObjects : old.csObjects.Extends new.csObjects
  pointers : old.pointers.names.Extends new.pointers.names

theorem Extends.refl (registry : Registry) : registry.Extends registry :=
  ⟨.refl _, .refl _, .refl _, .refl _⟩

theorem Extends.trans {first second third : Registry} (h : first.Extends second)
    (h' : second.Extends third) : first.Extends third where
  contexts := h.contexts.trans h'.contexts
  heap := h.heap.trans h'.heap
  csObjects := h.csObjects.trans h'.csObjects
  pointers := h.pointers.trans h'.pointers

theorem Extends.elements (h : old.Extends new) {id : ContextId} {parts : List ContextElem}
    (hparts : old.contexts.elements id = .ok parts) : new.contexts.elements id = .ok parts := by
  rw [Contexts.elements_eq_ok_iff] at hparts ⊢
  exact h.contexts _ _ hparts

theorem Extends.get (h : old.Extends new) {id : PointerId} {place : Pointer}
    (hplace : old.pointers.get id = .ok place) : new.pointers.get id = .ok place := by
  rw [Pointers.get, Handle.lookup_eq_ok_iff] at hplace ⊢
  exact h.pointers _ _ hplace

/-- A handle keeps its meaning. -/
theorem Extends.names (h : old.Extends new) (hnames : old.Names ref subject) :
    new.Names ref subject := by
  cases hnames with
  | context hparts => exact .context (h.elements hparts)
  | object hobject =>
    rw [Heap.get, Handle.lookup_eq_ok_iff] at hobject
    exact .object (Handle.lookup_eq_ok_iff.mpr (h.heap _ _ hobject))
  | csObject hobject =>
    rw [Handle.lookup_eq_ok_iff] at hobject
    exact .csObject (Handle.lookup_eq_ok_iff.mpr (h.csObjects _ _ hobject))
  | pointer hplace => exact .pointer (h.get hplace)

/-- A request keeps its meaning. -/
theorem Extends.asks (h : old.Extends new) (hasks : old.Asks request subject) :
    new.Asks request subject := by
  cases hasks with
  | context parts => exact .context parts
  | append hparts part limit => exact .append (h.elements hparts) part limit
  | truncate hparts limit => exact .truncate (h.elements hparts) limit
  | object alloc type => exact .object alloc type
  | csObject object => exact .csObject object
  | pointer place => exact .pointer place
  | add hplace objects => exact .add (h.get hplace) objects

theorem Asks.functional (h : registry.Asks request subject) (h' : registry.Asks request subject') :
    subject = subject' := by
  cases h with
  | append h =>
    cases h' with
    | append h' => rw [Except.ok.inj (h.symm.trans h')]
  | truncate h =>
    cases h' with
    | truncate h' => rw [Except.ok.inj (h.symm.trans h')]
  | add h =>
    cases h' with
    | add h' => rw [Except.ok.inj (h.symm.trans h')]
  | _ =>
    cases h'
    rfl

/-! ### One request -/

/-- The sets of `new` are those of `old` with what the request adds. -/
def Adds (old : Registry) (request : Request) (new : Registry) : Prop :=
  ∀ id set, new.pointers.getSet id = .ok set → ∀ object, object ∈ set.toList ↔
    (∃ before, old.pointers.getSet id = .ok before ∧ object ∈ before.toList) ∨
      ∃ objects, request = .add id objects ∧ object ∈ objects.toList

theorem adds_of_pointers_eq (hpointers : new.pointers = old.pointers)
    (hrequest : ∀ id objects, request ≠ .add id objects) : old.Adds request new := by
  intro id set hset object
  rw [hpointers] at hset
  simp [hset, hrequest]

/-- A new pointer starts with the empty set. -/
theorem adds_insert (registry : Registry) (place : Pointer) :
    registry.Adds (.pointer place)
      { registry with pointers := registry.pointers.insert place } := by
  intro id set hset object
  rw [Pointers.getSet, Handle.lookup_eq_ok_iff] at hset
  rcases Pointers.getElem?_sets_insert hset with hold | ⟨rfl, hlast⟩
  · have hbefore : registry.pointers.getSet id = .ok set := Handle.lookup_eq_ok_iff.mpr hold
    simp [hbefore]
  · have hnone : registry.pointers.sets[id.index]? = none := by
      rw [Array.getElem?_eq_none_iff, registry.pointers.size_sets, hlast]
    simp [Pointers.getSet, Handle.lookup_eq_ok_iff, hnone, SortedSet.toList]

theorem adds_add (registry : Registry) (id : PointerId) (objects : PointsToSet) :
    registry.Adds (.add id objects)
      { registry with pointers := registry.pointers.add id objects } := by
  intro other set hset object
  rw [Pointers.getSet, Handle.lookup_eq_ok_iff, Pointers.getElem?_sets_add] at hset
  split at hset
  next heq =>
    obtain ⟨before, hbefore, rfl⟩ := Option.map_eq_some_iff.mp hset
    obtain rfl : id = other := Handle.ext heq
    simp [Pointers.getSet, Handle.lookup_eq_ok_iff, hbefore, SortedSet.mem_union]
  next hne =>
    have hother : id ≠ other := fun heq => hne (congrArg Handle.index heq)
    simp [Pointers.getSet, Handle.lookup_eq_ok_iff, hset, hother]

/-- A request is answered with the handle of what it asks for, and changes no other handle. -/
structure Served (old : Registry) (request : Request) (new : Registry) (ref : Ref)
    (subject : Subject) : Prop where
  extend : old.Extends new
  asks : old.Asks request subject
  names : new.Names ref subject
  /-- No handle but the answer is new. -/
  only : ∀ ref' subject', new.Names ref' subject' → old.Names ref' subject' ∨ ref' = ref
  sets : old.Adds request new

/-- A table of contexts in which one sequence was selected. -/
theorem served_of_selects {outcome : Except Fault (Contexts × ContextId)}
    {parts : List ContextElem} (hselects : registry.contexts.Selects outcome parts)
    (hasks : registry.Asks request (.context parts))
    (hrequest : ∀ id objects, request ≠ .add id objects) :
    ∃ contexts id, outcome = .ok (contexts, id) ∧
      registry.Served request { registry with contexts } (.context id) (.context parts) := by
  obtain ⟨contexts, id, houtcome, hextends, hparts, honly⟩ := hselects
  have hextend : registry.Extends { registry with contexts } :=
    { Extends.refl registry with contexts := hextends }
  have hnames : Names { registry with contexts } (.context id) (.context parts) :=
    .context (Contexts.elements_eq_ok_iff.mpr hparts)
  refine ⟨contexts, id, houtcome, hextend, hasks, hnames, ?_, adds_of_pointers_eq rfl hrequest⟩
  intro ref' subject' hnames'
  cases hnames' with
  | @context other elems helems =>
    have hitem := Contexts.elements_eq_ok_iff.mp helems
    rcases honly elems (Array.mem_iff_getElem?.mpr ⟨_, hitem⟩) with hold | rfl
    · obtain ⟨number, hnumber⟩ := Array.mem_iff_getElem?.mp hold
      have hsame : other.index = number :=
        Interner.getElem?_injective hitem (hextends _ _ hnumber)
      exact .inl (.context (Contexts.elements_eq_ok_iff.mpr (hsame ▸ hnumber)))
    · exact .inr (Names.injective (.context helems) hnames)
  | object h => exact .inl (.object h)
  | csObject h => exact .inl (.csObject h)
  | pointer h => exact .inl (.pointer h)

theorem served_object (registry : Registry) (alloc : Site) (type : Ty) :
    registry.Served (.object alloc type)
      { registry with heap := (registry.heap.objFor alloc type).1 }
      (.object (registry.heap.objFor alloc type).2) (.object alloc) := by
  obtain ⟨object, hobject, hcode, -⟩ :=
    registry.heap.objects.exists_getElem?_numberOf ⟨alloc, type⟩
  have halloc : object.alloc = alloc := LawfulKey.code_injective hcode
  have hextend : registry.Extends { registry with heap := (registry.heap.objFor alloc type).1 } :=
    { Extends.refl registry with heap := Interner.extends_insert _ _ }
  have hnames : Names { registry with heap := (registry.heap.objFor alloc type).1 }
      (.object (registry.heap.objFor alloc type).2) (.object object.alloc) :=
    .object (Handle.lookup_eq_ok_iff.mpr hobject)
  rw [halloc] at hnames
  refine ⟨hextend, .object alloc type, hnames, ?_, adds_of_pointers_eq rfl (by simp)⟩
  intro ref' subject' hnames'
  cases hnames' with
  | context h => exact .inl (.context h)
  | @object other found h =>
    have hitem := Handle.lookup_eq_ok_iff.mp h
    rcases Interner.getElem?_items_insert_cases hitem with hold | ⟨rfl, -, -⟩
    · exact .inl (.object (Handle.lookup_eq_ok_iff.mpr hold))
    · exact .inr (Names.injective (.object h) hnames)
  | csObject h => exact .inl (.csObject h)
  | pointer h => exact .inl (.pointer h)

theorem served_csObject (registry : Registry) (object : CsObj) :
    registry.Served (.csObject object)
      { registry with csObjects := registry.csObjects.insert object }
      (.csObject ⟨registry.csObjects.numberOf object⟩) (.csObject object) := by
  have hextend : registry.Extends
      { registry with csObjects := registry.csObjects.insert object } :=
    { Extends.refl registry with csObjects := Interner.extends_insert _ _ }
  have hnames : Names { registry with csObjects := registry.csObjects.insert object }
      (.csObject ⟨registry.csObjects.numberOf object⟩) (.csObject object) :=
    .csObject (Handle.lookup_eq_ok_iff.mpr (Interner.getElem?_numberOf _ _))
  refine ⟨hextend, .csObject object, hnames, ?_, adds_of_pointers_eq rfl (by simp)⟩
  intro ref' subject' hnames'
  cases hnames' with
  | context h => exact .inl (.context h)
  | object h => exact .inl (.object h)
  | csObject h =>
    rcases Interner.getElem?_items_insert_cases (Handle.lookup_eq_ok_iff.mp h) with
      hold | ⟨rfl, -, -⟩
    · exact .inl (.csObject (Handle.lookup_eq_ok_iff.mpr hold))
    · exact .inr (Names.injective (.csObject h) hnames)
  | pointer h => exact .inl (.pointer h)

theorem served_pointer (registry : Registry) (place : Pointer) :
    registry.Served (.pointer place)
      { registry with pointers := registry.pointers.insert place }
      (.pointer (registry.pointers.idOf place)) (.pointer place) := by
  have hinsert := registry.pointers.names_insert place
  have hextend : registry.Extends
      { registry with pointers := registry.pointers.insert place } := by
    refine { Extends.refl registry with pointers := ?_ }
    rw [hinsert]
    exact Interner.extends_insert _ _
  have hnames : Names { registry with pointers := registry.pointers.insert place }
      (.pointer (registry.pointers.idOf place)) (.pointer place) := by
    refine .pointer (Handle.lookup_eq_ok_iff.mpr ?_)
    rw [hinsert]
    exact Interner.getElem?_numberOf _ _
  refine ⟨hextend, .pointer place, hnames, ?_, registry.adds_insert place⟩
  intro ref' subject' hnames'
  cases hnames' with
  | context h => exact .inl (.context h)
  | object h => exact .inl (.object h)
  | csObject h => exact .inl (.csObject h)
  | pointer h =>
    have hitem := Handle.lookup_eq_ok_iff.mp h
    rw [hinsert] at hitem
    rcases Interner.getElem?_items_insert_cases hitem with hold | ⟨rfl, -, -⟩
    · exact .inl (.pointer (Handle.lookup_eq_ok_iff.mpr hold))
    · exact .inr (Names.injective (.pointer h) hnames)

/-- Adding to a set changes no handle. -/
theorem served_add {id : PointerId} {place : Pointer}
    (hplace : registry.pointers.get id = .ok place) (objects : PointsToSet) :
    registry.Served (.add id objects)
      { registry with pointers := registry.pointers.add id objects }
      (.pointer id) (.pointer place) := by
  refine ⟨⟨.refl _, .refl _, .refl _, .refl _⟩, .add hplace objects, .pointer hplace, ?_,
    registry.adds_add id objects⟩
  intro ref' subject' hnames'
  cases hnames' with
  | context h => exact .inl (.context h)
  | object h => exact .inl (.object h)
  | csObject h => exact .inl (.csObject h)
  | pointer h => exact .inl (.pointer h)

/-- A request with handles in range is answered. -/
theorem exists_served (h : registry.Admits request) : ∃ next ref subject,
    registry.serve request = .ok (next, ref) ∧ registry.Served request next ref subject := by
  cases request with
  | context parts =>
    obtain ⟨contexts, id, houtcome, hserved⟩ :=
      served_of_selects (registry.contexts.selects_intern parts) (.context parts) (by simp)
    cases houtcome
    exact ⟨_, _, _, rfl, hserved⟩
  | append context part limit =>
    obtain ⟨parts, hparts⟩ := Interner.exists_getElem?_of_lt h
    have hasks := Asks.append (Contexts.elements_eq_ok_iff.mpr hparts) part limit
    obtain ⟨contexts, id, houtcome, hserved⟩ :=
      served_of_selects (Contexts.selects_append hparts part limit) hasks (by simp)
    exact ⟨_, _, _, by simp [serve, houtcome], hserved⟩
  | truncate context limit =>
    obtain ⟨parts, hparts⟩ := Interner.exists_getElem?_of_lt h
    have hasks := Asks.truncate (Contexts.elements_eq_ok_iff.mpr hparts) limit
    obtain ⟨contexts, id, houtcome, hserved⟩ :=
      served_of_selects (Contexts.selects_truncate hparts limit) hasks (by simp)
    exact ⟨_, _, _, by simp [serve, houtcome], hserved⟩
  | object alloc type => exact ⟨_, _, _, rfl, registry.served_object alloc type⟩
  | csObject object => exact ⟨_, _, _, rfl, registry.served_csObject object⟩
  | pointer place => exact ⟨_, _, _, rfl, registry.served_pointer place⟩
  | add id objects =>
    have hlt : id.index < registry.pointers.names.items.size := h
    obtain ⟨place, hplace, -⟩ := Handle.exists_lookup hlt
    obtain ⟨set, hset⟩ := Pointers.exists_get_iff.mp ⟨place, hplace⟩
    exact ⟨_, _, _, by simp [serve, Pointers.newObjects, hset], served_add hplace objects⟩

theorem served_of_serve (hadmits : registry.Admits request)
    (hserve : registry.serve request = .ok (next, ref)) :
    ∃ subject, registry.Served request next ref subject := by
  obtain ⟨next', ref', subject, hserve', hserved⟩ := exists_served hadmits
  rw [hserve] at hserve'
  cases hserve'
  exact ⟨subject, hserved⟩

/-! ### Sessions -/

section

variable {start : Registry}

theorem Serves.extends (h : Serves start log registry) : start.Extends registry := by
  induction h with
  | start => exact .refl _
  | serve _ hadmits hserve ih =>
    obtain ⟨subject, hserved⟩ := served_of_serve hadmits hserve
    exact ih.trans hserved.extend

/-- Every answer is, and stays, the handle of what was asked for. -/
theorem Serves.answered (h : Serves start log registry) (hentry : (request, ref) ∈ log) :
    ∃ subject, registry.Asks request subject ∧ registry.Names ref subject := by
  induction h with
  | start => cases hentry
  | serve _ hadmits hserve ih =>
    obtain ⟨subject, hserved⟩ := served_of_serve hadmits hserve
    rcases List.mem_cons.mp hentry with hlast | hbefore
    · cases hlast
      exact ⟨subject, hserved.extend.asks hserved.asks, hserved.names⟩
    · obtain ⟨asked, hasks, hnames⟩ := ih hbefore
      exact ⟨asked, hserved.extend.asks hasks, hserved.extend.names hnames⟩

/-- Every handle was there at the start or is an answer. -/
theorem Serves.requested (h : Serves start log registry) (hnames : registry.Names ref subject) :
    start.Names ref subject ∨ ∃ request, (request, ref) ∈ log := by
  induction h with
  | start => exact .inl hnames
  | @serve log _ _ request _ _ hadmits hserve ih =>
    obtain ⟨_, hserved⟩ := served_of_serve hadmits hserve
    rcases hserved.only _ _ hnames with hold | rfl
    · rcases ih hold with hstart | ⟨request', hbefore⟩
      · exact .inl hstart
      · exact .inr ⟨request', List.mem_cons_of_mem _ hbefore⟩
    · exact .inr ⟨request, List.mem_cons_self⟩

/-- The set of a pointer is what was added to it. -/
theorem Serves.mem_set_iff (h : Serves {} log registry) {id : PointerId} {set : PointsToSet}
    (hset : registry.pointers.getSet id = .ok set) (object : CsObjId) :
    object ∈ set.toList ↔
      ∃ objects ref, (.add id objects, ref) ∈ log ∧ object ∈ objects.toList := by
  induction h generalizing set with
  | start => simp [Pointers.getSet, Handle.lookup_eq_ok_iff] at hset
  | @serve log registry next request ref h hadmits hserve ih =>
    obtain ⟨_, hserved⟩ := served_of_serve hadmits hserve
    rw [hserved.sets id set hset object]
    constructor
    · rintro (⟨before, hbefore, hmem⟩ | ⟨objects, rfl, hmem⟩)
      · obtain ⟨objects, ref', hentry, hobject⟩ := (ih hbefore).mp hmem
        exact ⟨objects, ref', List.mem_cons_of_mem _ hentry, hobject⟩
      · exact ⟨objects, ref, List.mem_cons_self, hmem⟩
    · rintro ⟨objects, ref', hentry, hobject⟩
      rcases List.mem_cons.mp hentry with hlast | hbefore
      · cases hlast
        exact .inr ⟨objects, rfl, hobject⟩
      · obtain ⟨subject, hasks, -⟩ := h.answered hbefore
        cases hasks with
        | add hplace =>
          obtain ⟨before, hset⟩ := Pointers.exists_get_iff.mp ⟨_, hplace⟩
          exact .inl ⟨before, hset, (ih hset).mpr ⟨objects, ref', hbefore, hobject⟩⟩

/-- What a log of requests and answers and the tables behind it have to do with each other. -/
structure Faithful (log : List (Request × Ref)) (registry : Registry) : Prop where
  /-- The first context is the empty sequence. -/
  root : registry.contexts.elements Contexts.root = .ok []
  /-- Handles and what they stand for are in one-to-one correspondence. -/
  one_to_one : ∀ ref ref' subject subject', registry.Names ref subject →
    registry.Names ref' subject' → (ref = ref' ↔ subject = subject')
  /-- The handles of a table are the numbers below its size. -/
  dense : ∀ ref, (∃ subject, registry.Names ref subject) ↔ ref.index < registry.sizeFor ref
  /-- Every answer is the handle of what was asked for. -/
  answers : ∀ request ref, (request, ref) ∈ log →
    ∃ subject, registry.Asks request subject ∧ registry.Names ref subject
  /-- Two requests have the same answer exactly when they asked for the same. -/
  same_iff : ∀ request ref request' ref' subject subject', (request, ref) ∈ log →
    (request', ref') ∈ log → registry.Asks request subject → registry.Asks request' subject' →
    (ref = ref' ↔ subject = subject')
  /-- Only what was asked for has a handle. -/
  requested : ∀ ref subject, registry.Names ref subject →
    ref = .context Contexts.root ∨ ∃ request, (request, ref) ∈ log
  /-- Every further request is answered, and changes no handle. -/
  progress : ∀ request, registry.Admits request → ∃ next ref,
    registry.serve request = .ok (next, ref) ∧ registry.Extends next
  /-- However the session goes on, no handle changes. -/
  stable : ∀ more later, Serves registry more later → registry.Extends later
  /-- Looking up a pointer finds its handle. -/
  find : ∀ place id, registry.pointers.find? place = some id ↔
    registry.pointers.get id = .ok place
  /-- Every pointer has one set. -/
  one_set : ∀ id, (∃ place, registry.pointers.get id = .ok place) ↔
    ∃ set, registry.pointers.getSet id = .ok set
  /-- The set of a pointer is what was added to it. -/
  sets : ∀ id set object, registry.pointers.getSet id = .ok set →
    (object ∈ set.toList ↔
      ∃ objects ref, (.add id objects, ref) ∈ log ∧ object ∈ objects.toList)
  append : ∀ context part limit ref, (.append context part limit, ref) ∈ log →
    ∃ parts id, ref = .context id ∧ registry.contexts.elements context = .ok parts ∧
      registry.contexts.elements id = .ok ((parts ++ [part]).rtake limit)
  truncate : ∀ context limit ref, (.truncate context limit, ref) ∈ log →
    ∃ parts id, ref = .context id ∧ registry.contexts.elements context = .ok parts ∧
      registry.contexts.elements id = .ok (parts.rtake limit)
  truncate_truncate : ∀ context middle m n ref ref',
    (.truncate context m, .context middle) ∈ log → (.truncate middle n, ref) ∈ log →
    (.truncate context (min m n), ref') ∈ log → ref = ref'
  truncate_append : ∀ context middle part m n ref ref',
    (.append context part m, .context middle) ∈ log → (.truncate middle n, ref) ∈ log →
    (.append context part (min m n), ref') ∈ log → ref = ref'

theorem Serves.append (h : Serves start log registry) {context : ContextId} {part : ContextElem}
    {limit : Nat} (hentry : (.append context part limit, ref) ∈ log) :
    ∃ parts id, ref = .context id ∧ registry.contexts.elements context = .ok parts ∧
      registry.contexts.elements id = .ok ((parts ++ [part]).rtake limit) := by
  obtain ⟨subject, hasks, hnames⟩ := h.answered hentry
  cases hasks with
  | @append _ parts hparts =>
    cases hnames with
    | @context id _ hid => exact ⟨parts, id, rfl, hparts, hid⟩

theorem Serves.truncate (h : Serves start log registry) {context : ContextId} {limit : Nat}
    (hentry : (.truncate context limit, ref) ∈ log) :
    ∃ parts id, ref = .context id ∧ registry.contexts.elements context = .ok parts ∧
      registry.contexts.elements id = .ok (parts.rtake limit) := by
  obtain ⟨subject, hasks, hnames⟩ := h.answered hentry
  cases hasks with
  | @truncate _ parts hparts =>
    cases hnames with
    | @context id _ hid => exact ⟨parts, id, rfl, hparts, hid⟩

/-- Cutting twice is cutting once. -/
theorem rtake_rtake (parts : List ContextElem) (m n : Nat) :
    (parts.rtake m).rtake n = parts.rtake (min m n) := by
  rw [min_comm]
  exact Contexts.lastOf_lastOf n m parts

/-- What is cut from a context has the handle of the shorter cut of what the context was cut
from. -/
theorem Serves.cut (h : Serves start log registry) {middle id : ContextId}
    {whole : List ContextElem} {m n : Nat}
    (hmiddle : registry.contexts.elements middle = .ok (whole.rtake m))
    (hentry : (.truncate middle n, ref) ∈ log)
    (hid : registry.contexts.elements id = .ok (whole.rtake (min m n))) : ref = .context id := by
  obtain ⟨parts, cut, rfl, hparts, hcut⟩ := h.truncate hentry
  cases hparts.symm.trans hmiddle
  rw [rtake_rtake] at hcut
  exact Names.injective (.context hcut) (.context hid)

end

theorem names_initial (h : Names {} ref subject) : ref = .context Contexts.root := by
  have hlt := h.index_lt
  cases ref with
  | context id =>
    have hzero : id.index < 1 := hlt
    have hroot : id = Contexts.root := Handle.ext (Nat.lt_one_iff.mp hzero)
    rw [hroot]
  | object id => exact absurd hlt (Nat.not_lt_zero _)
  | csObject id => exact absurd hlt (Nat.not_lt_zero _)
  | pointer id => exact absurd hlt (Nat.not_lt_zero _)

/-- Whatever is asked for and in which order, the handles of a session are faithful. -/
theorem session_faithful (h : Serves {} log registry) : Faithful log registry where
  root := Contexts.elements_eq_ok_iff.mpr registry.contexts.root_eq
  one_to_one _ _ _ _ hnames hnames' := hnames.eq_iff hnames'
  dense ref := ⟨fun ⟨_, hnames⟩ => hnames.index_lt, exists_names_of_lt⟩
  answers _ _ hentry := h.answered hentry
  same_iff request ref request' ref' subject subject' hentry hentry' hasks hasks' := by
    obtain ⟨_, hasked, hnames⟩ := h.answered hentry
    obtain ⟨_, hasked', hnames'⟩ := h.answered hentry'
    cases hasked.functional hasks
    cases hasked'.functional hasks'
    exact hnames.eq_iff hnames'
  requested ref subject hnames := (h.requested hnames).imp_left names_initial
  progress request hadmits := by
    obtain ⟨next, ref, _, hserve, hserved⟩ := exists_served hadmits
    exact ⟨next, ref, hserve, hserved.extend⟩
  stable _ _ hlater := hlater.extends
  find _ _ := Pointers.find?_eq_some_iff.trans Handle.lookup_eq_ok_iff.symm
  one_set _ := Pointers.exists_get_iff
  sets _ _ object hset := h.mem_set_iff hset object
  append _ _ _ _ hentry := h.append hentry
  truncate _ _ _ hentry := h.truncate hentry
  truncate_truncate context middle m n ref ref' hfirst hsecond hdirect := by
    obtain ⟨parts, cut, hcut, hparts, hmiddle⟩ := h.truncate hfirst
    cases hcut
    obtain ⟨parts', id, rfl, hparts', hid⟩ := h.truncate hdirect
    cases hparts.symm.trans hparts'
    exact h.cut hmiddle hsecond hid
  truncate_append context middle part m n ref ref' hfirst hsecond hdirect := by
    obtain ⟨parts, cut, hcut, hparts, hmiddle⟩ := h.append hfirst
    cases hcut
    obtain ⟨parts', id, rfl, hparts', hid⟩ := h.append hdirect
    cases hparts.symm.trans hparts'
    exact h.cut hmiddle hsecond hid

/-- The requests of a session, the last one first, with their answers; nothing when a handle is
out of range. -/
def session : List Request → Option (Registry × List (Request × Ref))
  | [] => some ({}, [])
  | request :: earlier => do
    let (registry, log) ← session earlier
    if registry.Admits request then
      match registry.serve request with
      | .ok (next, ref) => return (next, (request, ref) :: log)
      | .error _ => none
    else none

theorem serves_of_session {requests : List Request}
    (h : session requests = some (registry, log)) : Serves {} log registry := by
  induction requests generalizing registry log with
  | nil =>
    cases h
    exact .start
  | cons request earlier ih =>
    simp only [session, Option.bind_eq_bind, Option.bind_eq_some_iff] at h
    obtain ⟨⟨before, log'⟩, hbefore, hlast⟩ := h
    split at hlast
    next hadmits =>
      split at hlast
      next next ref hserve =>
        cases hlast
        exact .serve (ih hbefore) hadmits hserve
      · cases hlast
    · cases hlast

/-- A context of two parts is cut to one part, which is then also appended directly. -/
theorem session_faithful_cut : ∃ registry log,
    session [.add ⟨0⟩ ⟨[⟨0⟩]⟩, .pointer (.var ⟨2⟩ ⟨5⟩), .csObject ⟨⟨3⟩, ⟨0⟩⟩,
      .object ⟨⟨0⟩, 4⟩ .int, .append ⟨1⟩ (.object ⟨7⟩) 1, .truncate ⟨2⟩ 1,
      .append ⟨1⟩ (.object ⟨7⟩) 2, .append ⟨0⟩ (.object ⟨6⟩) 2] = some (registry, log) ∧
    log.map Prod.snd = [.pointer ⟨0⟩, .pointer ⟨0⟩, .csObject ⟨0⟩, .object ⟨0⟩, .context ⟨3⟩,
      .context ⟨3⟩, .context ⟨2⟩, .context ⟨1⟩] ∧ Faithful log registry := by
  have hanswers : ((session [.add ⟨0⟩ ⟨[⟨0⟩]⟩, .pointer (.var ⟨2⟩ ⟨5⟩), .csObject ⟨⟨3⟩, ⟨0⟩⟩,
      .object ⟨⟨0⟩, 4⟩ .int, .append ⟨1⟩ (.object ⟨7⟩) 1, .truncate ⟨2⟩ 1,
      .append ⟨1⟩ (.object ⟨7⟩) 2, .append ⟨0⟩ (.object ⟨6⟩) 2]).map (·.2.map Prod.snd)) =
      some [.pointer ⟨0⟩, .pointer ⟨0⟩, .csObject ⟨0⟩, .object ⟨0⟩, .context ⟨3⟩,
        .context ⟨3⟩, .context ⟨2⟩, .context ⟨1⟩] := by
    decide +kernel
  obtain ⟨⟨registry, log⟩, hsession, hrefs⟩ := Option.map_eq_some_iff.mp hanswers
  exact ⟨registry, log, hsession, hrefs, session_faithful (serves_of_session hsession)⟩

end Registry

end ObjectFlow.PointsTo
