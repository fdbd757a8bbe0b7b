import ObjectFlow.Proofs.PointsTo.Run

/-!
# The result is closed under the rules

At the end of a run the tables of the solver are closed under the rules of the analysis,
in the terms of the tables themselves: contexts are selected by the policy, which selects
no context that is not there, and what a place points to is the set of its pointer.
-/

namespace ObjectFlow.PointsTo

namespace State

/-- What a pointer points to. -/
def pointsTo (state : State) (place : Pointer) : List CsObjId := (state.pointers.setOf place).toList

/-- A call is noted with all that it asks for: its callee is reachable, arguments flow to
parameters and returned variables to the result. -/
structure Called (program : Program) (state : State) (context : ContextId) (site : Site)
    (call : Call) (selected : ContextId) (callee : MethodId) : Prop where
  edge : ⟨call.kind, ⟨context, site⟩, ⟨selected, callee⟩⟩ ∈ state.calls.edges.toList
  reachable : state.calls.contains ⟨selected, callee⟩ = true
  argument : ∀ (method : Method) (i : Nat) (arg param : VarId),
    program.getMethod callee = .ok method → call.args[i]? = some arg →
      method.params[i]? = some param →
        state.pointsTo (.var context arg) ⊆ state.pointsTo (.var selected param)
  result : ∀ returned value result, program.returnVars callee = .ok returned →
    value ∈ returned → call.result = some result →
      state.pointsTo (.var selected value) ⊆ state.pointsTo (.var context result)

/-- The tables are closed under the rules of the analysis. -/
structure Closed (program : Program) (policy : Policy) (state : State) : Prop where
  entry : ∀ entry ∈ program.entries, state.calls.contains ⟨Contexts.root, entry⟩ = true
  /-- An edge of the flow graph is an inclusion. -/
  flow : ∀ a b, state.flow.hasEdge a b = true → ∃ source target,
    state.pointers.get a = .ok source ∧ state.pointers.get b = .ok target ∧
      state.pointsTo source ⊆ state.pointsTo target
  /-- An allocation puts its object, under the context of the heap, into its variable. -/
  alloc : ∀ context site lhs type, state.calls.contains ⟨context, site.method⟩ = true →
    program.getStmt site = .ok (.alloc lhs type) → ∃ heapContext object id,
      policy.heapContext state.contexts context = .ok (state.contexts, heapContext) ∧
        state.heap.get object = .ok ⟨site, type⟩ ∧
        id.lookup state.csObjects.items = .ok ⟨heapContext, object⟩ ∧
        id ∈ state.pointsTo (.var context lhs)
  copy : ∀ context site lhs rhs, state.calls.contains ⟨context, site.method⟩ = true →
    program.getStmt site = .ok (.copy lhs rhs) →
      state.pointsTo (.var context rhs) ⊆ state.pointsTo (.var context lhs)
  staticLoad : ∀ context site lhs field, state.calls.contains ⟨context, site.method⟩ = true →
    program.getStmt site = .ok (.loadField lhs none field) →
      state.pointsTo (.staticField field) ⊆ state.pointsTo (.var context lhs)
  staticStore : ∀ context site field rhs, state.calls.contains ⟨context, site.method⟩ = true →
    program.getStmt site = .ok (.storeField none field rhs) →
      state.pointsTo (.var context rhs) ⊆ state.pointsTo (.staticField field)
  staticCall : ∀ context site call callee, state.calls.contains ⟨context, site.method⟩ = true →
    program.getStmt site = .ok (.invoke call) → call.kind = .static →
      program.callee none call.kind call.target = .ok (some callee) → ∃ selected,
        policy.staticContext state.contexts context site = .ok (state.contexts, selected) ∧
          state.Called program context site call selected callee
  fieldLoad : ∀ context base object site lhs field,
    object ∈ state.pointsTo (.var context base) →
      program.getStmt site = .ok (.loadField lhs (some base) field) →
        state.pointsTo (.instanceField object field) ⊆ state.pointsTo (.var context lhs)
  fieldStore : ∀ context base object site field rhs,
    object ∈ state.pointsTo (.var context base) →
      program.getStmt site = .ok (.storeField (some base) field rhs) →
        state.pointsTo (.var context rhs) ⊆ state.pointsTo (.instanceField object field)
  arrayLoad : ∀ context base object site lhs index,
    object ∈ state.pointsTo (.var context base) →
      program.getStmt site = .ok (.loadArray lhs base index) →
        state.pointsTo (.arraySlots object) ⊆ state.pointsTo (.var context lhs)
  arrayStore : ∀ context base object site index rhs,
    object ∈ state.pointsTo (.var context base) →
      program.getStmt site = .ok (.storeArray base index rhs) →
        state.pointsTo (.var context rhs) ⊆ state.pointsTo (.arraySlots object)
  /-- A call on an object is noted for the callee that its type resolves to, under the
  context that the policy selects for it, and the callee receives the object. -/
  receiverCall : ∀ context base object site call,
    object ∈ state.pointsTo (.var context base) →
      program.getStmt site = .ok (.invoke call) → call.base = some base → ∃ receiver type,
        state.receiver program object = .ok (receiver, type) ∧
          ∀ callee, program.callee (some type) call.kind call.target = .ok (some callee) →
            ∃ selected, policy.instanceContext state.contexts context site receiver =
                .ok (state.contexts, selected) ∧
              state.Called program context site call selected callee ∧
              ∀ method this, program.getMethod callee = .ok method → method.this = some this →
                object ∈ state.pointsTo (.var selected this)

variable {program : Program} {policy : Policy} {state : State}

/-- A call that is recorded has all that it asks for. -/
theorem Finished.called (h : state.Finished program policy) {context selected : ContextId}
    {site : Site} {call : Call} {callee : MethodId}
    (hstmt : program.getStmt site = .ok (.invoke call))
    (hcall : state.Holds (.calls call.kind context site selected callee)) :
    state.Called program context site call selected callee := by
  obtain ⟨hreachable, hargument, hresult⟩ := h.invariant.covered _ hcall
  refine ⟨hcall, hreachable.holds, ?_, ?_⟩
  · intro method i arg param hmethod harg hparam object hobject
    have hbound : (arg, param) ∈ call.args.zip method.params :=
      List.mem_iff_getElem?.mpr ⟨i, by simp [List.getElem?_zip_eq_some, harg, hparam]⟩
    exact h.flow (hargument call method arg param hstmt hmethod hbound).holds hobject
  · intro returned value result hreturned hvalue hname object hobject
    exact h.flow (hresult call returned value result hstmt hreturned hvalue hname).holds hobject

/-- The tables of a run say where an allocated object comes from. -/
theorem Orderly.exists_allocated (h : state.Orderly program policy) {context : ContextId}
    {site : Site} {id : CsObjId} (hallocated : state.Allocated policy context site id) {lhs : VarId}
    {type : Ty} (hstmt : program.getStmt site = .ok (.alloc lhs type)) : ∃ heapContext object,
      policy.heapContext state.contexts context = .ok (state.contexts, heapContext) ∧
        state.heap.get object = .ok ⟨site, type⟩ ∧
        id.lookup state.csObjects.items = .ok ⟨heapContext, object⟩ := by
  obtain ⟨parts, object, obj, hparts, hobject, hheap, hobj, halloc⟩ := hallocated
  -- The allocation of an abstract object fixes its type.
  obtain ⟨lhs', hstmt'⟩ := h.objects obj (Array.mem_iff_getElem?.mpr ⟨_, hobj⟩)
  rw [halloc, hstmt] at hstmt'
  cases hstmt'
  refine ⟨object.context, object.object, Policy.heapContext_of_getElem? hparts hheap, ?_,
    Handle.lookup_eq_ok_iff.mpr hobject⟩
  rw [Heap.get, Handle.lookup_eq_ok_iff, hobj, ← halloc]

/-- Every edge of the flow graph is an edge between two places. -/
theorem Linked.exists_flows (h : state.Linked) {a b : PointerId}
    (hedge : state.flow.hasEdge a b = true) : ∃ source target,
      state.pointers.get a = .ok source ∧ state.pointers.get b = .ok target ∧
        state.Holds (.flows source target) := by
  obtain ⟨ha, hb⟩ := h.edge (a, b) (Interner.contains_iff.mp hedge)
  obtain ⟨source, hsource⟩ := Interner.exists_getElem?_of_lt ha
  obtain ⟨target, htarget⟩ := Interner.exists_getElem?_of_lt hb
  exact ⟨source, target, Handle.lookup_eq_ok_iff.mpr hsource, Handle.lookup_eq_ok_iff.mpr htarget,
    holds_flows_iff.mpr ⟨a, b, hsource, htarget, Interner.contains_iff.mp hedge⟩⟩

/-- A run that has nothing left to do is closed. -/
theorem Finished.closed (h : state.Finished program policy) : state.Closed program policy where
  entry := h.entered
  flow a b hedge := by
    obtain ⟨source, target, hsource, htarget, hflow⟩ :=
      h.invariant.orderly.linked.exists_flows hedge
    exact ⟨source, target, hsource, htarget, fun object hobject => h.flow hflow hobject⟩
  alloc context site lhs type hreachable hstmt := by
    obtain ⟨id, hallocated, hpoints⟩ := h.executed hreachable hstmt
    obtain ⟨heapContext, object, hcontext, hobj, hobject⟩ :=
      h.invariant.orderly.exists_allocated hallocated hstmt
    exact ⟨heapContext, object, id, hcontext, hobj, hobject, h.holds_of_points hpoints⟩
  copy context site lhs rhs hreachable hstmt object hobject :=
    h.flow (h.executed hreachable hstmt).holds hobject
  staticLoad context site lhs field hreachable hstmt object hobject :=
    h.flow (h.executed hreachable hstmt).holds hobject
  staticStore context site field rhs hreachable hstmt object hobject :=
    h.flow (h.executed hreachable hstmt).holds hobject
  staticCall context site call callee hreachable hstmt hstatic hcallee := by
    obtain ⟨selected, ⟨parts, hparts, hselected⟩, hcall⟩ :=
      h.executed hreachable hstmt (by simp [Call.isStatic, hstatic]) callee hcallee
    exact ⟨selected, Policy.staticContext_of_getElem? hparts hselected, h.called hstmt hcall.holds⟩
  fieldLoad context base object site lhs field hbase hstmt other hother :=
    h.flow (h.accessed hbase hstmt rfl).holds hother
  fieldStore context base object site field rhs hbase hstmt other hother :=
    h.flow (h.accessed hbase hstmt rfl).holds hother
  arrayLoad context base object site lhs index hbase hstmt other hother :=
    h.flow (h.accessed hbase hstmt rfl).holds hother
  arrayStore context base object site index rhs hbase hstmt other hother :=
    h.flow (h.accessed hbase hstmt rfl).holds hother
  receiverCall context base object site call hbase hstmt howner := by
    have hroute : (Stmt.invoke call).route? = some (base, .invoke) := by
      simp [Stmt.route?, howner]
    obtain ⟨receiver, type, hreceiver, hcalls⟩ := h.accessed hbase hstmt hroute
    refine ⟨receiver, type, hreceiver, fun callee hcallee => ?_⟩
    obtain ⟨selected, ⟨parts, heap, hparts, hheap, hselected⟩, hthis, hcall⟩ :=
      hcalls callee hcallee
    exact ⟨selected, Policy.instanceContext_of_getElem? hparts hheap hselected,
      h.called hstmt hcall.holds,
      fun method this hmethod hname => h.holds_of_points (hthis method this hmethod hname)⟩

/-- When a run is done, its tables are closed under the rules of the analysis. -/
theorem closed_of_done (hreaches : Reaches program policy state) (hdone : state.phase = .done) :
    state.Closed program policy :=
  (hreaches.finished hdone).closed

end State

/-- A class whose `main` creates an object, calls a method on it that returns its argument,
and counts to seven. -/
def boxListing : Listing where
  classes := #[{ id := ⟨0⟩, name := "Box", superClass := none, interfaces := [],
                 isInterface := false, isAbstract := false, methods := [⟨0⟩, ⟨1⟩] }]
  methods := #[
    { id := ⟨0⟩, name := "main", declaringClass := ⟨0⟩, subsignature := "main()", isStatic := true,
      isAbstract := false, this := none, params := [],
      stmts := #[.alloc ⟨0⟩ (.object ⟨0⟩), .assign ⟨4⟩ (.literal 7),
        .invoke { kind := .virtual, target := ⟨⟨0⟩, "same(Box)"⟩, base := some ⟨0⟩, args := [⟨0⟩],
                  result := some ⟨1⟩ }, .nop] },
    { id := ⟨1⟩, name := "same", declaringClass := ⟨0⟩, subsignature := "same(Box)",
      isStatic := false, isAbstract := false, this := some ⟨2⟩, params := [⟨3⟩],
      stmts := #[.ret (some ⟨3⟩)] }]
  vars := #[⟨⟨0⟩, "a", .object ⟨0⟩, ⟨0⟩⟩, ⟨⟨1⟩, "b", .object ⟨0⟩, ⟨0⟩⟩,
    ⟨⟨2⟩, "this", .object ⟨0⟩, ⟨1⟩⟩, ⟨⟨3⟩, "x", .object ⟨0⟩, ⟨1⟩⟩, ⟨⟨4⟩, "n", .int, ⟨0⟩⟩]
  entries := [⟨0⟩]

/-- The program of `boxListing`. -/
def boxProgram : Program where
  listing := boxListing
  sound := by decide
  index := Index.ofListing boxListing
  index_eq := rfl

/-- The run on `boxProgram` is done after some steps, and closed then. -/
theorem closed_of_done_box : ∃ state,
    State.Reaches boxProgram ⟨.object 1, 0⟩ state ∧ state.phase = .done ∧
      state.Closed boxProgram ⟨.object 1, 0⟩ := by
  obtain ⟨final, -, hreaches, hdone⟩ := State.exists_solve boxProgram ⟨.object 1, 0⟩
  exact ⟨final, hreaches, hdone, State.closed_of_done hreaches hdone⟩

end ObjectFlow.PointsTo
