import ObjectFlow.Proofs.PointsTo.Closure
import ObjectFlow.Proofs.PointsTo.Growth

/-!
# Nothing is lost between two steps

Only what is new to a pointer goes on along its edges, and edges are added while a step is
still at work, so that an edge sees what its source has at that moment and no more.  What
makes this right is an invariant of every state between two steps, told here in the terms of
the tables: an object that an edge, an allocation or a call brings to a pointer is in the set
of that pointer, or an entry of the worklist brings it, while edges and calls that an object
opens are there as soon as the object is.
-/

namespace ObjectFlow.PointsTo

namespace State

variable {program : Program} {policy : Policy} {state : State}

/-- The pointer has the object, or an entry of the worklist brings it. -/
def Receives (state : State) (id : PointerId) (object : CsObjId) : Prop :=
  (∃ set, state.pointers.getSet id = .ok set ∧ object ∈ set.toList) ∨
    ∃ objects, (id, objects) ∈ state.worklist.toList ∧ object ∈ objects.toList

/-- The pointer of a place receives the object. -/
def ReceivesAt (state : State) (place : Pointer) (object : CsObjId) : Prop :=
  ∃ id, state.pointers.find? place = some id ∧ state.Receives id object

/-- A call on an object is noted for its callee under the context that the policy selects, and
the callee receives the object. -/
structure Dispatched (program : Program) (policy : Policy) (state : State) (context : ContextId)
    (object : CsObjId) (site : Site) (call : Call) (receiver : Receiver) (callee : MethodId)
    (selected : ContextId) : Prop where
  selects : policy.instanceContext state.contexts context site receiver =
    .ok (state.contexts, selected)
  edge : ⟨call.kind, ⟨context, site⟩, ⟨selected, callee⟩⟩ ∈ state.calls.edges.toList
  gives : ∀ method this, program.getMethod callee = .ok method → method.this = some this →
    state.ReceivesAt (.var selected this) object

/-- All that the tables ask for is in them or on its way. -/
structure Lossless (program : Program) (policy : Policy) (state : State) : Prop where
  /-- What the source of an edge has, its target receives. -/
  flow : ∀ a b, state.flow.hasEdge a b = true → ∃ set, state.pointers.getSet a = .ok set ∧
    ∀ object ∈ set.toList, state.Receives b object
  /-- The variable of an allocation receives its object under the context of the heap. -/
  alloc : ∀ context site lhs type, state.calls.contains ⟨context, site.method⟩ = true →
    program.getStmt site = .ok (.alloc lhs type) → ∃ heapContext object id,
      policy.heapContext state.contexts context = .ok (state.contexts, heapContext) ∧
        state.heap.get object = .ok ⟨site, type⟩ ∧
        id.lookup state.csObjects.items = .ok ⟨heapContext, object⟩ ∧
        state.ReceivesAt (.var context lhs) id
  fieldLoad : ∀ context base object site lhs field,
    object ∈ state.pointsTo (.var context base) →
      program.getStmt site = .ok (.loadField lhs (some base) field) →
        state.Holds (.flows (.instanceField object field) (.var context lhs))
  fieldStore : ∀ context base object site field rhs,
    object ∈ state.pointsTo (.var context base) →
      program.getStmt site = .ok (.storeField (some base) field rhs) →
        state.Holds (.flows (.var context rhs) (.instanceField object field))
  arrayLoad : ∀ context base object site lhs index,
    object ∈ state.pointsTo (.var context base) →
      program.getStmt site = .ok (.loadArray lhs base index) →
        state.Holds (.flows (.arraySlots object) (.var context lhs))
  arrayStore : ∀ context base object site index rhs,
    object ∈ state.pointsTo (.var context base) →
      program.getStmt site = .ok (.storeArray base index rhs) →
        state.Holds (.flows (.var context rhs) (.arraySlots object))
  receiverCall : ∀ context base object site call,
    object ∈ state.pointsTo (.var context base) →
      program.getStmt site = .ok (.invoke call) → call.base = some base → ∃ receiver type,
        state.receiver program object = .ok (receiver, type) ∧
          ∀ callee, program.callee (some type) call.kind call.target = .ok (some callee) →
            ∃ selected,
              state.Dispatched program policy context object site call receiver callee selected
  /-- An entry of the worklist is for a pointer, and brings objects that there are. -/
  entry : ∀ id objects, (id, objects) ∈ state.worklist.toList →
    (∃ place, state.pointers.get id = .ok place) ∧
      ∀ object ∈ objects.toList, ∃ csObject, object.lookup state.csObjects.items = .ok csObject

/-- What a place points to, or is to point to, its pointer receives. -/
theorem Points.receivesAt {place : Pointer} {object : CsObjId} (h : state.Points place object) :
    state.ReceivesAt place object := by
  rcases h with hholds | ⟨id, objects, hname, hentry, hobject⟩
  · obtain ⟨id, set, hname, hset, hobject⟩ := Pointers.mem_setOf_iff.mp hholds
    exact ⟨id, Pointers.find?_eq_some_iff.mpr hname,
      .inl ⟨set, Handle.lookup_eq_ok_iff.mpr hset, hobject⟩⟩
  · exact ⟨id, hname, .inr ⟨objects, hentry, hobject⟩⟩

/-- A place has one pointer, so that what it receives, that pointer receives. -/
theorem ReceivesAt.receives {place : Pointer} {object : CsObjId} {id : PointerId}
    (h : state.ReceivesAt place object) (hname : state.pointers.get id = .ok place) :
    state.Receives id object := by
  obtain ⟨other, hother, hreceives⟩ := h
  have hid := Pointers.find?_eq_some_iff.mpr (Handle.lookup_eq_ok_iff.mp hname)
  obtain rfl : other = id := Option.some.inj (hother.symm.trans hid)
  exact hreceives

namespace Reaches

/-- What a statement asks for on an object is there when its variable has the object. -/
theorem accessed (h : Reaches program policy state) {context : ContextId} {base : VarId}
    {object : CsObjId} (hpoints : object ∈ state.pointsTo (.var context base)) {site : Site}
    {stmt : Stmt} (hstmt : program.getStmt site = .ok stmt) {route : Route}
    (hroute : stmt.route? = some (base, route)) :
    state.Accessed program policy [] context object site stmt := by
  have hholds : state.Holds (.pointsTo (.var context base) object) := hpoints
  exact (h.covered hholds).accessed hstmt hroute

theorem receives_of_edge (h : Reaches program policy state) {a b : PointerId}
    (hedge : state.flow.hasEdge a b = true) : ∃ set, state.pointers.getSet a = .ok set ∧
      ∀ object ∈ set.toList, state.Receives b object := by
  obtain ⟨source, target, hsource, htarget, hflows⟩ := h.linked.exists_flows hedge
  have hname := Handle.lookup_eq_ok_iff.mp hsource
  obtain ⟨set, hset⟩ := Pointers.exists_getSet hname
  have hgot : state.pointers.getSet a = .ok set := Handle.lookup_eq_ok_iff.mpr hset
  refine ⟨set, hgot, fun object hobject => ?_⟩
  have hpoints : state.Points target object :=
    h.covered hflows object ((holds_pointsTo_iff_of_getSet hname hgot).mpr hobject)
  exact hpoints.receivesAt.receives htarget

theorem receivesAt_of_alloc (h : Reaches program policy state) {context : ContextId} {site : Site}
    {lhs : VarId} {type : Ty} (hreachable : state.Holds (.reachable context site.method))
    (hstmt : program.getStmt site = .ok (.alloc lhs type)) : ∃ heapContext object id,
      policy.heapContext state.contexts context = .ok (state.contexts, heapContext) ∧
        state.heap.get object = .ok ⟨site, type⟩ ∧
        id.lookup state.csObjects.items = .ok ⟨heapContext, object⟩ ∧
        state.ReceivesAt (.var context lhs) id := by
  obtain ⟨stack, hinv⟩ := h.exists_invariant
  obtain ⟨id, hallocated, hpoints⟩ := (h.covered hreachable).executed hstmt
  obtain ⟨heapContext, object, hcontext, hobj, hobject⟩ :=
    hinv.orderly.exists_allocated hallocated hstmt
  exact ⟨heapContext, object, id, hcontext, hobj, hobject, hpoints.receivesAt⟩

theorem exists_dispatched (h : Reaches program policy state) {context : ContextId} {base : VarId}
    {object : CsObjId} (hpoints : object ∈ state.pointsTo (.var context base)) {site : Site}
    {call : Call} (hstmt : program.getStmt site = .ok (.invoke call))
    (hbase : call.base = some base) : ∃ receiver type,
      state.receiver program object = .ok (receiver, type) ∧
        ∀ callee, program.callee (some type) call.kind call.target = .ok (some callee) →
          ∃ selected,
            state.Dispatched program policy context object site call receiver callee selected := by
  have hroute : (Stmt.invoke call).route? = some (base, .invoke) := by
    simp [Stmt.route?, hbase]
  obtain ⟨receiver, type, hreceiver, hcalls⟩ := h.accessed hpoints hstmt hroute
  refine ⟨receiver, type, hreceiver, fun callee hcallee => ?_⟩
  obtain ⟨selected, ⟨parts, heap, hparts, hheap, hselected⟩, hthis, hcall⟩ := hcalls callee hcallee
  refine ⟨selected, Policy.instanceContext_of_getElem? hparts hheap hselected, hcall.holds, ?_⟩
  intro method this hmethod hname
  exact (hthis method this hmethod hname).receivesAt

/-- The entries of the worklist name pointers and objects of the tables. -/
theorem entry_readable (h : Reaches program policy state) {id : PointerId} {objects : PointsToSet}
    (hentry : (id, objects) ∈ state.worklist.toList) :
    (∃ place, state.pointers.get id = .ok place) ∧
      ∀ object ∈ objects.toList, ∃ csObject,
        object.lookup state.csObjects.items = .ok csObject := by
  obtain ⟨stack, hinv⟩ := h.exists_invariant
  obtain ⟨place, hname⟩ := Interner.exists_getElem?_of_lt (h.linked.entry _ hentry)
  refine ⟨⟨place, Handle.lookup_eq_ok_iff.mpr hname⟩, fun object hobject => ?_⟩
  -- What is on its way is justified, and so stands for an object that can be read.
  obtain ⟨named, hreads, -⟩ :=
    hinv.pending place object (pending_iff.mpr ⟨id, objects, hname, hentry, hobject⟩)
  cases hreads with
  | pointsTo _ hread =>
    obtain ⟨csObject, -, hitem, -⟩ := hread
    exact ⟨csObject, Handle.lookup_eq_ok_iff.mpr hitem⟩

end Reaches

/-- No state that a run goes through has lost anything. -/
theorem nothing_lost (h : Reaches program policy state) : state.Lossless program policy where
  flow _ _ hedge := h.receives_of_edge hedge
  alloc _ _ _ _ hreachable hstmt := h.receivesAt_of_alloc hreachable hstmt
  fieldLoad _ _ _ _ _ _ hpoints hstmt := (h.accessed hpoints hstmt rfl).holds
  fieldStore _ _ _ _ _ _ hpoints hstmt := (h.accessed hpoints hstmt rfl).holds
  arrayLoad _ _ _ _ _ _ hpoints hstmt := (h.accessed hpoints hstmt rfl).holds
  arrayStore _ _ _ _ _ _ hpoints hstmt := (h.accessed hpoints hstmt rfl).holds
  receiverCall _ _ _ _ _ hpoints hstmt hbase := h.exists_dispatched hpoints hstmt hbase
  entry _ _ hentry := h.entry_readable hentry

end State

/-- After two steps on `boxProgram` the object is in `a`, from where an edge leads to the
parameter of the callee, and is only on its way there and to `this`. -/
theorem nothing_lost_box : ∃ first second,
    State.step boxProgram ⟨.object 1, 0⟩ {} = .ok (.more first) ∧
      first.step boxProgram ⟨.object 1, 0⟩ = .ok (.more second) ∧
      second.pointsTo (.var ⟨0⟩ ⟨0⟩) = [⟨0⟩] ∧ second.pointsTo (.var ⟨1⟩ ⟨3⟩) = [] ∧
      second.worklist.toList = [(⟨1⟩, ⟨[⟨0⟩]⟩), (⟨2⟩, ⟨[⟨0⟩]⟩)] ∧
      second.Lossless boxProgram ⟨.object 1, 0⟩ := by
  have hsteps : (match State.step boxProgram ⟨.object 1, 0⟩ {} with
      | .ok (.more first) =>
        match first.step boxProgram ⟨.object 1, 0⟩ with
        | .ok (.more second) => some (second.pointsTo (.var ⟨0⟩ ⟨0⟩),
            second.pointsTo (.var ⟨1⟩ ⟨3⟩), second.worklist.toList)
        | _ => none
      | _ => none) =
        some ([⟨0⟩], [], [(⟨1⟩, ⟨[⟨0⟩]⟩), (⟨2⟩, ⟨[⟨0⟩]⟩)]) := by
    decide +kernel
  split at hsteps
  · next first hfirst =>
    split at hsteps
    · next second hsecond =>
      simp only [Option.some.injEq, Prod.mk.injEq] at hsteps
      have hreaches : State.Reaches boxProgram ⟨.object 1, 0⟩ second :=
        .step (.step .initial hfirst) hsecond
      exact ⟨first, second, hfirst, hsecond, hsteps.1, hsteps.2.1, hsteps.2.2,
        State.nothing_lost hreaches⟩
    · cases hsteps
  · cases hsteps

end ObjectFlow.PointsTo
