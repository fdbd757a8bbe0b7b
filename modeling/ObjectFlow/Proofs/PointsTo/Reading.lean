import Mathlib.Data.List.Forall2
import ObjectFlow.PointsTo.Solver
import ObjectFlow.Proofs.CallGraph.Tables
import ObjectFlow.Proofs.PointsTo.Derivation

/-!
# Reading the state of a run

A run names contexts and objects by handles into its tables.  `State.Reads` says which
judgement on marks and allocations a judgement on handles stands for, and `State.Holds`
which judgements on handles the tables record.  A run only adds to its tables, so that a
handle is read in the same way for ever, and no two handles are read as the same thing.
-/

namespace ObjectFlow

namespace PointsTo

section Related

variable {κ κ' ω ω' : Type}

/-- Two places that differ only in how they name contexts and objects. -/
inductive Place.Related (R : κ → κ' → Prop) (S : ω → ω' → Prop) :
    Place κ ω → Place κ' ω' → Prop where
  | var {c : κ} {c' : κ'} (h : R c c') (v : VarId) : Related R S (.var c v) (.var c' v)
  | staticField (field : FieldId) : Related R S (.staticField field) (.staticField field)
  | instanceField {o : ω} {o' : ω'} (h : S o o') (field : FieldId) :
    Related R S (.instanceField o field) (.instanceField o' field)
  | arraySlots {o : ω} {o' : ω'} (h : S o o') : Related R S (.arraySlots o) (.arraySlots o')

/-- Two judgements that differ only in how they name contexts and objects. -/
inductive Judgement.Related (R : κ → κ' → Prop) (S : ω → ω' → Prop) :
    Judgement κ ω → Judgement κ' ω' → Prop where
  | reachable {c : κ} {c' : κ'} (h : R c c') (m : MethodId) :
    Related R S (.reachable c m) (.reachable c' m)
  | pointsTo {p : Place κ ω} {p' : Place κ' ω'} {o : ω} {o' : ω'} (hp : p.Related R S p')
    (ho : S o o') : Related R S (.pointsTo p o) (.pointsTo p' o')
  | flows {p q : Place κ ω} {p' q' : Place κ' ω'} (hp : p.Related R S p')
    (hq : q.Related R S q') : Related R S (.flows p q) (.flows p' q')
  | calls {c d : κ} {c' d' : κ'} (kind : CallKind) (hc : R c c') (site : Site) (hd : R d d')
    (m : MethodId) : Related R S (.calls kind c site d m) (.calls kind c' site d' m)

variable {R R' : κ → κ' → Prop} {S S' : ω → ω' → Prop}

theorem Place.Related.mono (hR : ∀ c c', R c c' → R' c c') (hS : ∀ o o', S o o' → S' o o')
    {p : Place κ ω} {p' : Place κ' ω'} (h : p.Related R S p') : p.Related R' S' p' := by
  cases h with
  | var h v => exact .var (hR _ _ h) v
  | staticField field => exact .staticField field
  | instanceField h field => exact .instanceField (hS _ _ h) field
  | arraySlots h => exact .arraySlots (hS _ _ h)

theorem Judgement.Related.mono (hR : ∀ c c', R c c' → R' c c') (hS : ∀ o o', S o o' → S' o o')
    {j : Judgement κ ω} {j' : Judgement κ' ω'} (h : j.Related R S j') : j.Related R' S' j' := by
  cases h with
  | reachable h m => exact .reachable (hR _ _ h) m
  | pointsTo hp ho => exact .pointsTo (hp.mono hR hS) (hS _ _ ho)
  | flows hp hq => exact .flows (hp.mono hR hS) (hq.mono hR hS)
  | calls kind hc site hd m => exact .calls kind (hR _ _ hc) site (hR _ _ hd) m

/-- When names are read injectively, so are places. -/
theorem Place.Related.injective (hR : ∀ c d c', R c c' → R d c' → c = d)
    (hS : ∀ o p o', S o o' → S p o' → o = p) {p q : Place κ ω} {p' : Place κ' ω'}
    (hp : p.Related R S p') (hq : q.Related R S p') : p = q := by
  cases hp with
  | var h v =>
    cases hq with
    | var h' => rw [hR _ _ _ h h']
  | staticField field =>
    cases hq
    rfl
  | instanceField h field =>
    cases hq with
    | instanceField h' => rw [hS _ _ _ h h']
  | arraySlots h =>
    cases hq with
    | arraySlots h' => rw [hS _ _ _ h h']

/-- When names are read in one way only, so are places. -/
theorem Place.Related.functional (hR : ∀ c d d', R c d → R c d' → d = d')
    (hS : ∀ o p p', S o p → S o p' → p = p') {p : Place κ ω} {p' q' : Place κ' ω'}
    (hp : p.Related R S p') (hq : p.Related R S q') : p' = q' := by
  cases hp with
  | var h v =>
    cases hq with
    | var h' => rw [hR _ _ _ h h']
  | staticField field =>
    cases hq
    rfl
  | instanceField h field =>
    cases hq with
    | instanceField h' => rw [hS _ _ _ h h']
  | arraySlots h =>
    cases hq with
    | arraySlots h' => rw [hS _ _ _ h h']

end Related

namespace Pointers

variable {pointers : Pointers}

theorem find?_eq_some_iff {pointer : Pointer} {id : PointerId} :
    pointers.find? pointer = some id ↔ pointers.names.items[id.index]? = some pointer := by
  obtain ⟨number⟩ := id
  simp [find?, Interner.find?_eq_some_iff]

theorem exists_getSet {id : PointerId} {pointer : Pointer}
    (h : pointers.names.items[id.index]? = some pointer) :
    ∃ set, pointers.sets[id.index]? = some set := by
  have hlt : id.index < pointers.sets.size := by
    rw [pointers.size_sets]
    exact Interner.lt_size_of_getElem? h
  exact ⟨_, Array.getElem?_eq_getElem hlt⟩

theorem mem_setOf_iff {pointer : Pointer} {object : CsObjId} :
    object ∈ (pointers.setOf pointer).toList ↔
      ∃ (id : PointerId) (set : PointsToSet), pointers.names.items[id.index]? = some pointer ∧
        pointers.sets[id.index]? = some set ∧ object ∈ set.toList := by
  unfold setOf
  cases hfind : pointers.find? pointer with
  | none =>
    simp only [SortedSet.toList, List.not_mem_nil, false_iff, not_exists]
    rintro id set ⟨hname, -⟩
    rw [find?_eq_some_iff.mpr hname] at hfind
    cases hfind
  | some id =>
    have hname := find?_eq_some_iff.mp hfind
    obtain ⟨set, hset⟩ := exists_getSet hname
    simp only [hset, Option.getD_some]
    constructor
    · exact fun hmem => ⟨id, set, hname, hset, hmem⟩
    · rintro ⟨other, set', hname', hset', hmem⟩
      obtain rfl : id = other := Handle.ext (Interner.getElem?_injective hname hname')
      rw [hset] at hset'
      cases hset'
      exact hmem

end Pointers

/-- How a part of a context is read. -/
inductive Heap.ReadsElem (heap : Heap) : ContextElem → Mark → Prop where
  | callSite (site : Site) : ReadsElem heap (.callSite site) (.callSite site)
  | object {id : ObjId} {obj : Obj} (h : heap.objects.items[id.index]? = some obj) :
    ReadsElem heap (.object id) (.object obj.alloc)
  | type (id : ClassId) : ReadsElem heap (.type id) (.type id)

theorem Heap.eq_of_alloc_eq {heap : Heap} {number number' : Nat} {obj obj' : Obj}
    (h : heap.objects.items[number]? = some obj) (h' : heap.objects.items[number']? = some obj')
    (halloc : obj.alloc = obj'.alloc) : number = number' :=
  Interner.number_unique h h' (by simp [code, halloc])

theorem Heap.ReadsElem.injective {heap : Heap} {a b : ContextElem} {mark : Mark}
    (ha : heap.ReadsElem a mark) (hb : heap.ReadsElem b mark) : a = b := by
  cases ha with
  | callSite site =>
    cases hb
    rfl
  | object h =>
    generalize hmark : Mark.object _ = mark at hb
    cases hb with
    | object h' => rw [Handle.ext (Heap.eq_of_alloc_eq h h' (Mark.object.inj hmark))]
    | callSite => cases hmark
    | type => cases hmark
  | type id =>
    cases hb
    rfl

theorem Heap.ReadsElem.functional {heap : Heap} {elem : ContextElem} {mark mark' : Mark}
    (h : heap.ReadsElem elem mark) (h' : heap.ReadsElem elem mark') : mark = mark' := by
  cases h with
  | callSite site =>
    cases h'
    rfl
  | object hobj =>
    cases h' with
    | object hobj' => rw [Option.some.inj (hobj.symm.trans hobj')]
  | type id =>
    cases h'
    rfl

namespace State

/-- The sequence of marks that a context stands for. -/
def ReadsContext (state : State) (id : ContextId) (trail : Trail) : Prop :=
  ∃ parts, state.contexts.table.items[id.index]? = some parts ∧
    List.Forall₂ state.heap.ReadsElem parts trail

/-- The context and the allocation that an object stands for. -/
def ReadsObject (state : State) (id : CsObjId) (origin : Origin) : Prop :=
  ∃ object obj, state.csObjects.items[id.index]? = some object ∧
    state.ReadsContext object.context origin.context ∧
    state.heap.objects.items[object.object.index]? = some obj ∧ obj.alloc = origin.alloc

/-- The judgement on marks and allocations that a judgement on handles stands for. -/
def Reads (state : State) : Judgement ContextId CsObjId → Judgement Trail Origin → Prop :=
  Judgement.Related state.ReadsContext state.ReadsObject

/-- What the tables of a run record. -/
def Holds (state : State) : Judgement ContextId CsObjId → Prop
  | .reachable context method => state.calls.contains ⟨context, method⟩ = true
  | .pointsTo place object => object ∈ (state.pointers.setOf place).toList
  | .flows source target => ∃ a b, state.pointers.find? source = some a ∧
      state.pointers.find? target = some b ∧ state.flow.hasEdge a b = true
  | .calls kind context site calleeContext callee =>
      ⟨kind, ⟨context, site⟩, ⟨calleeContext, callee⟩⟩ ∈ state.calls.edges.toList

/-- An object is on its way to a place. -/
def Pending (state : State) (place : Pointer) (object : CsObjId) : Prop :=
  ∃ id objects, state.pointers.find? place = some id ∧
    (id, objects) ∈ state.worklist.toList ∧ object ∈ objects.toList

/-- The tables of `new` continue those of `old`. -/
structure Extends (old new : State) : Prop where
  heap : old.heap.objects.Extends new.heap.objects
  contexts : old.contexts.table.Extends new.contexts.table
  csObjects : old.csObjects.Extends new.csObjects
  pointers : old.pointers.names.Extends new.pointers.names
  sets : ∀ place object, old.Holds (.pointsTo place object) → new.Holds (.pointsTo place object)
  flow : old.flow.edges.Extends new.flow.edges
  reachable : old.calls.reachable.Extends new.calls.reachable
  calls : old.calls.edges.Extends new.calls.edges

theorem Extends.refl (state : State) : state.Extends state where
  heap := Interner.Extends.refl _
  contexts := Interner.Extends.refl _
  csObjects := Interner.Extends.refl _
  pointers := Interner.Extends.refl _
  sets _ _ h := h
  flow := Interner.Extends.refl _
  reachable := Interner.Extends.refl _
  calls := Interner.Extends.refl _

theorem Extends.trans {first second third : State} (h : first.Extends second)
    (h' : second.Extends third) : first.Extends third where
  heap := h.heap.trans h'.heap
  contexts := h.contexts.trans h'.contexts
  csObjects := h.csObjects.trans h'.csObjects
  pointers := h.pointers.trans h'.pointers
  sets place object hold := h'.sets place object (h.sets place object hold)
  flow := h.flow.trans h'.flow
  reachable := h.reachable.trans h'.reachable
  calls := h.calls.trans h'.calls

theorem holds_reachable_iff {state : State} {context : ContextId} {method : MethodId} :
    state.Holds (.reachable context method) ↔
      (⟨context, method⟩ : CsMethod) ∈ state.calls.reachable.items :=
  Interner.contains_iff

theorem holds_flows_iff {state : State} {source target : Pointer} :
    state.Holds (.flows source target) ↔ ∃ a b : PointerId,
      state.pointers.names.items[a.index]? = some source ∧
        state.pointers.names.items[b.index]? = some target ∧ (a, b) ∈ state.flow.edges.items := by
  simp only [Holds, Pointers.find?_eq_some_iff, FlowGraph.hasEdge, Interner.contains_iff]

theorem holds_calls_iff {state : State} {kind : CallKind} {context calleeContext : ContextId}
    {site : Site} {callee : MethodId} :
    state.Holds (.calls kind context site calleeContext callee) ↔
      (⟨kind, ⟨context, site⟩, ⟨calleeContext, callee⟩⟩ : CallEdge CsSite CsMethod) ∈
        state.calls.edges.items := by
  simp [Holds, Interner.toList]

variable {old new : State}

/-- What is recorded stays recorded. -/
theorem Extends.holds (h : old.Extends new) {j : Judgement ContextId CsObjId}
    (hold : old.Holds j) : new.Holds j := by
  cases j with
  | reachable context method =>
    rw [holds_reachable_iff] at hold ⊢
    exact h.reachable.mem hold
  | pointsTo place object => exact h.sets place object hold
  | flows source target =>
    rw [holds_flows_iff] at hold ⊢
    obtain ⟨a, b, ha, hb, hedge⟩ := hold
    exact ⟨a, b, h.pointers _ _ ha, h.pointers _ _ hb, h.flow.mem hedge⟩
  | calls kind context site calleeContext callee =>
    rw [holds_calls_iff] at hold ⊢
    exact h.calls.mem hold

theorem Extends.readsElem (h : old.Extends new) {elem : ContextElem} {mark : Mark}
    (hreads : old.heap.ReadsElem elem mark) : new.heap.ReadsElem elem mark := by
  cases hreads with
  | callSite site => exact .callSite site
  | object hobj => exact .object (h.heap _ _ hobj)
  | type id => exact .type id

theorem Extends.readsContext (h : old.Extends new) {id : ContextId} {trail : Trail}
    (hreads : old.ReadsContext id trail) : new.ReadsContext id trail := by
  obtain ⟨parts, hparts, hall⟩ := hreads
  exact ⟨parts, h.contexts _ _ hparts, hall.imp fun _ _ => h.readsElem⟩

theorem Extends.readsObject (h : old.Extends new) {id : CsObjId} {origin : Origin}
    (hreads : old.ReadsObject id origin) : new.ReadsObject id origin := by
  obtain ⟨object, obj, hobject, hcontext, hobj, halloc⟩ := hreads
  exact ⟨object, obj, h.csObjects _ _ hobject, h.readsContext hcontext, h.heap _ _ hobj, halloc⟩

/-- A handle is read in the same way for ever. -/
theorem Extends.reads (h : old.Extends new) {j : Judgement ContextId CsObjId}
    {named : Judgement Trail Origin} (hreads : old.Reads j named) : new.Reads j named :=
  hreads.mono (fun _ _ => h.readsContext) fun _ _ => h.readsObject

variable {state : State}

theorem readsContext_injective (c d : ContextId) (trail : Trail)
    (hc : state.ReadsContext c trail) (hd : state.ReadsContext d trail) : c = d := by
  obtain ⟨parts, hparts, hall⟩ := hc
  obtain ⟨parts', hparts', hall'⟩ := hd
  have hunique : Relator.LeftUnique state.heap.ReadsElem :=
    fun _ _ _ ha hb => Heap.ReadsElem.injective ha hb
  obtain rfl : parts = parts' := List.left_unique_forall₂' hunique hall hall'
  exact Handle.ext (Interner.getElem?_injective hparts hparts')

theorem readsObject_injective (a b : CsObjId) (origin : Origin)
    (ha : state.ReadsObject a origin) (hb : state.ReadsObject b origin) : a = b := by
  obtain ⟨⟨context, object⟩, obj, hobject, hcontext, hobj, halloc⟩ := ha
  obtain ⟨⟨context', object'⟩, obj', hobject', hcontext', hobj', halloc'⟩ := hb
  obtain rfl := readsContext_injective context context' _ hcontext hcontext'
  obtain rfl : object = object' :=
    Handle.ext (Heap.eq_of_alloc_eq hobj hobj' (halloc.trans halloc'.symm))
  exact Handle.ext (Interner.getElem?_injective hobject hobject')

/-- No two places of a run stand for the same place. -/
theorem readsPlace_injective {p q : Pointer} {place : Place Trail Origin}
    (hp : p.Related state.ReadsContext state.ReadsObject place)
    (hq : q.Related state.ReadsContext state.ReadsObject place) : p = q :=
  hp.injective readsContext_injective readsObject_injective hq

theorem readsContext_functional (c : ContextId) (trail trail' : Trail)
    (h : state.ReadsContext c trail) (h' : state.ReadsContext c trail') : trail = trail' := by
  obtain ⟨parts, hparts, hall⟩ := h
  obtain ⟨parts', hparts', hall'⟩ := h'
  rw [hparts] at hparts'
  cases hparts'
  have hunique : Relator.RightUnique state.heap.ReadsElem :=
    fun _ _ _ ha hb => Heap.ReadsElem.functional ha hb
  exact List.right_unique_forall₂' hunique hall hall'

theorem readsObject_functional (o : CsObjId) (origin origin' : Origin)
    (h : state.ReadsObject o origin) (h' : state.ReadsObject o origin') : origin = origin' := by
  obtain ⟨object, obj, hobject, hcontext, hobj, halloc⟩ := h
  obtain ⟨object', obj', hobject', hcontext', hobj', halloc'⟩ := h'
  rw [hobject] at hobject'
  cases hobject'
  rw [hobj] at hobj'
  cases hobj'
  obtain ⟨trail, alloc⟩ := origin
  obtain ⟨trail', alloc'⟩ := origin'
  cases readsContext_functional _ _ _ hcontext hcontext'
  cases halloc
  cases halloc'
  rfl

/-- A place of a run stands for one place only. -/
theorem readsPlace_functional {p : Pointer} {place place' : Place Trail Origin}
    (h : p.Related state.ReadsContext state.ReadsObject place)
    (h' : p.Related state.ReadsContext state.ReadsObject place') : place = place' :=
  h.functional readsContext_functional readsObject_functional h'

/-- A judgement on handles stands for one judgement only. -/
theorem reads_functional {j : Judgement ContextId CsObjId} {named named' : Judgement Trail Origin}
    (h : state.Reads j named) (h' : state.Reads j named') : named = named' := by
  cases h with
  | reachable hcontext =>
    cases h' with
    | reachable hcontext' => rw [readsContext_functional _ _ _ hcontext hcontext']
  | pointsTo hplace hobject =>
    cases h' with
    | pointsTo hplace' hobject' =>
      rw [readsPlace_functional hplace hplace', readsObject_functional _ _ _ hobject hobject']
  | flows hsource htarget =>
    cases h' with
    | flows hsource' htarget' =>
      rw [readsPlace_functional hsource hsource', readsPlace_functional htarget htarget']
  | calls kind hcontext site hselected =>
    cases h' with
    | calls _ hcontext' _ hselected' =>
      rw [readsContext_functional _ _ _ hcontext hcontext',
        readsContext_functional _ _ _ hselected hselected']

theorem readsContext_root (state : State) : state.ReadsContext Contexts.root [] :=
  ⟨[], state.contexts.root_eq, .nil⟩

end State

section Parts

variable {α β : Type} {R : α → β → Prop}

theorem Contexts.forall₂_lastOf (limit : Nat) {l : List α} {l' : List β}
    (h : List.Forall₂ R l l') :
    List.Forall₂ R (Contexts.lastOf limit l) (Contexts.lastOf limit l') := by
  unfold Contexts.lastOf
  rw [h.length_eq]
  exact List.forall₂_drop _ h

theorem Contexts.forall₂_snoc {l : List α} {l' : List β} (h : List.Forall₂ R l l') {a : α} {b : β}
    (hab : R a b) : List.Forall₂ R (l ++ [a]) (l' ++ [b]) :=
  List.rel_append h (.cons hab .nil)

/-- Selection looks at the parts of contexts only to move them. -/
theorem Policy.forall₂_heapParts (policy : Policy) {l : List α} {l' : List β}
    (h : List.Forall₂ R l l') : List.Forall₂ R (policy.heapParts l) (policy.heapParts l') := by
  unfold Policy.heapParts
  cases policy.strategy with
  | insensitive => exact .nil
  | _ => exact Contexts.forall₂_lastOf _ h

theorem Policy.forall₂_staticParts (policy : Policy) {l : List α} {l' : List β}
    (h : List.Forall₂ R l l') {a : α} {b : β} (hab : R a b) :
    List.Forall₂ R (policy.staticParts l a) (policy.staticParts l' b) := by
  unfold Policy.staticParts
  cases policy.strategy with
  | insensitive => exact .nil
  | callSite k => exact Contexts.forall₂_lastOf _ (Contexts.forall₂_snoc h hab)
  | _ => exact h

theorem Policy.forall₂_instanceParts (policy : Policy) {l heap : List α} {l' heap' : List β}
    (h : List.Forall₂ R l l') (hheap : List.Forall₂ R heap heap') {site object type : α}
    {site' object' type' : β} (hsite : R site site') (hobject : R object object')
    (htype : R type type') :
    List.Forall₂ R (policy.instanceParts l heap site object type)
      (policy.instanceParts l' heap' site' object' type') := by
  unfold Policy.instanceParts
  cases policy.strategy with
  | insensitive => exact .nil
  | callSite k => exact Contexts.forall₂_lastOf _ (Contexts.forall₂_snoc h hsite)
  | object k => exact Contexts.forall₂_lastOf _ (Contexts.forall₂_snoc hheap hobject)
  | type k => exact Contexts.forall₂_lastOf _ (Contexts.forall₂_snoc hheap htype)

end Parts

end PointsTo

end ObjectFlow
