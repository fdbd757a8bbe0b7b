import ObjectFlow.Proofs.PointsTo.Orderly

/-!
# What the rules allow, in terms of handles

A judgement on handles is justified when the rules allow the judgement that it stands
for.  The lemmas below carry the rules of `Derives` over to handles; a selected context
is given by the parts that it stands for.  A task is justified when what it needs is.
-/

namespace ObjectFlow.PointsTo

namespace State

variable {program : Program} {policy : Policy} {state old new : State}
  {context selected : ContextId} {site : Site} {method : MethodId} {object : CsObjId}
  {base : VarId} {source target : Pointer}

/-- `selected` is the context of a method that is called at `site` without receiver. -/
def StaticContext (policy : Policy) (state : State) (context : ContextId) (site : Site)
    (selected : ContextId) : Prop :=
  ∃ parts, state.contexts.table.items[context.index]? = some parts ∧
    state.contexts.table.items[selected.index]? =
      some (policy.staticParts parts (.callSite site))

/-- `selected` is the context of a method that is called at `site` on `receiver`. -/
def InstanceContext (policy : Policy) (state : State) (context : ContextId) (site : Site)
    (receiver : Receiver) (selected : ContextId) : Prop :=
  ∃ parts heap, state.contexts.table.items[context.index]? = some parts ∧
    state.contexts.table.items[receiver.heapContext.index]? = some heap ∧
    state.contexts.table.items[selected.index]? =
      some (policy.receiverParts parts heap site receiver)

theorem StaticContext.extend (hextend : old.Extends new)
    (h : old.StaticContext policy context site selected) :
    new.StaticContext policy context site selected := by
  obtain ⟨parts, hparts, hselected⟩ := h
  exact ⟨parts, hextend.contexts _ _ hparts, hextend.contexts _ _ hselected⟩

theorem InstanceContext.extend (hextend : old.Extends new) {receiver : Receiver}
    (h : old.InstanceContext policy context site receiver selected) :
    new.InstanceContext policy context site receiver selected := by
  obtain ⟨parts, heap, hparts, hheap, hselected⟩ := h
  exact ⟨parts, heap, hextend.contexts _ _ hparts, hextend.contexts _ _ hheap,
    hextend.contexts _ _ hselected⟩

theorem StaticContext.reads (h : state.StaticContext policy context site selected)
    {trail : Trail} (hcontext : state.ReadsContext context trail) :
    state.ReadsContext selected (policy.staticParts trail (.callSite site)) := by
  obtain ⟨parts, hparts, hselected⟩ := h
  obtain ⟨parts', hparts', hall⟩ := hcontext
  rw [hparts] at hparts'
  cases hparts'
  exact ⟨_, hselected, policy.forall₂_staticParts hall (.callSite site)⟩

/-- A selected context stands for what is selected on what its parts stand for. -/
theorem InstanceContext.reads {receiver : Receiver}
    (h : state.InstanceContext policy context site receiver selected) {trail heapTrail : Trail}
    (hcontext : state.ReadsContext context trail)
    (hheapContext : state.ReadsContext receiver.heapContext heapTrail) {mark : Mark}
    (hmark : state.heap.ReadsElem (.object receiver.object) mark) :
    state.ReadsContext selected
      (policy.instanceParts trail heapTrail (.callSite site) mark (.type receiver.allocClass)) := by
  obtain ⟨parts, heap, hparts, hheap, hselected⟩ := h
  obtain ⟨parts', hparts', hall⟩ := hcontext
  obtain ⟨heap', hheap', hallHeap⟩ := hheapContext
  rw [hparts] at hparts'
  cases hparts'
  rw [hheap] at hheap'
  cases hheap'
  exact ⟨_, hselected,
    policy.forall₂_instanceParts hall hallHeap (.callSite site) hmark (.type _)⟩

theorem Allocated.reads (h : state.Allocated policy context site object) {trail : Trail}
    (hcontext : state.ReadsContext context trail) :
    state.ReadsObject object ⟨policy.heapParts trail, site⟩ := by
  obtain ⟨parts, csObject, obj, hparts, hobject, hheap, hobj, halloc⟩ := h
  obtain ⟨parts', hparts', hall⟩ := hcontext
  rw [hparts] at hparts'
  cases hparts'
  exact ⟨csObject, obj, hobject, ⟨_, hheap, policy.forall₂_heapParts hall⟩, hobj, halloc⟩

/-- The rules allow what the judgement stands for. -/
def Justified (program : Program) (policy : Policy) (state : State)
    (j : Judgement ContextId CsObjId) : Prop :=
  ∃ named, state.Reads j named ∧ Derives program policy named

theorem Justified.extend (hextend : old.Extends new) {j : Judgement ContextId CsObjId}
    (h : old.Justified program policy j) : new.Justified program policy j := by
  obtain ⟨named, hreads, hderives⟩ := h
  exact ⟨named, hextend.reads hreads, hderives⟩

theorem Justified.reachable (h : state.Justified program policy (.reachable context method)) :
    ∃ trail, state.ReadsContext context trail ∧
      Derives program policy (.reachable trail method) := by
  obtain ⟨named, hreads, hderives⟩ := h
  cases hreads with
  | reachable hcontext => exact ⟨_, hcontext, hderives⟩

theorem Justified.pointsTo
    (h : state.Justified program policy (.pointsTo (.var context base) object)) :
    ∃ trail origin, state.ReadsContext context trail ∧ state.ReadsObject object origin ∧
      Derives program policy (.pointsTo (.var trail base) origin) := by
  obtain ⟨named, hreads, hderives⟩ := h
  cases hreads with
  | pointsTo hplace hobject =>
    cases hplace with
    | var hcontext => exact ⟨_, _, hcontext, hobject, hderives⟩

theorem Justified.flows (h : state.Justified program policy (.flows source target)) :
    ∃ place place', source.Related state.ReadsContext state.ReadsObject place ∧
      target.Related state.ReadsContext state.ReadsObject place' ∧
      Derives program policy (.flows place place') := by
  obtain ⟨named, hreads, hderives⟩ := h
  cases hreads with
  | flows hsource htarget => exact ⟨_, _, hsource, htarget, hderives⟩

theorem Justified.calls {kind : CallKind}
    (h : state.Justified program policy (.calls kind context site selected method)) :
    ∃ trail trail', state.ReadsContext context trail ∧ state.ReadsContext selected trail' ∧
      Derives program policy (.calls kind trail site trail' method) := by
  obtain ⟨named, hreads, hderives⟩ := h
  cases hreads with
  | calls _ hcontext _ hselected => exact ⟨_, _, hcontext, hselected, hderives⟩

/-- Both ends of a justified edge can be read. -/
theorem Justified.readable (h : state.Justified program policy (.flows source target)) :
    state.ReadablePlace program source ∧ state.ReadablePlace program target := by
  obtain ⟨place, place', hsource, htarget, hderives⟩ := h.flows
  exact ⟨⟨place, hsource, hderives.inRange.1⟩, ⟨place', htarget, hderives.inRange.2⟩⟩

section Reachable

variable (h : state.Justified program policy (.reachable context site.method))
include h

theorem justified_alloc {lhs : VarId} {type : Ty}
    (hstmt : program.getStmt site = .ok (.alloc lhs type))
    (hobject : state.Allocated policy context site object) :
    state.Justified program policy (.pointsTo (.var context lhs) object) := by
  obtain ⟨trail, hcontext, hderives⟩ := h.reachable
  exact ⟨_, .pointsTo (.var hcontext lhs) (hobject.reads hcontext), .alloc hderives hstmt⟩

theorem justified_copy {lhs rhs : VarId} (hstmt : program.getStmt site = .ok (.copy lhs rhs)) :
    state.Justified program policy (.flows (.var context rhs) (.var context lhs)) := by
  obtain ⟨trail, hcontext, hderives⟩ := h.reachable
  exact ⟨_, .flows (.var hcontext rhs) (.var hcontext lhs), .copy hderives hstmt⟩

theorem justified_staticLoad {lhs : VarId} {field : FieldId}
    (hstmt : program.getStmt site = .ok (.loadField lhs none field)) :
    state.Justified program policy (.flows (.staticField field) (.var context lhs)) := by
  obtain ⟨trail, hcontext, hderives⟩ := h.reachable
  exact ⟨_, .flows (.staticField field) (.var hcontext lhs), .staticLoad hderives hstmt⟩

theorem justified_staticStore {rhs : VarId} {field : FieldId}
    (hstmt : program.getStmt site = .ok (.storeField none field rhs)) :
    state.Justified program policy (.flows (.var context rhs) (.staticField field)) := by
  obtain ⟨trail, hcontext, hderives⟩ := h.reachable
  exact ⟨_, .flows (.var hcontext rhs) (.staticField field), .staticStore hderives hstmt⟩

theorem justified_staticCall {call : Call} (hstmt : program.getStmt site = .ok (.invoke call))
    (hstatic : call.isStatic = true)
    (hcallee : program.callee none call.kind call.target = .ok (some method))
    (hselected : state.StaticContext policy context site selected) :
    state.Justified program policy (.calls call.kind context site selected method) := by
  obtain ⟨trail, hcontext, hderives⟩ := h.reachable
  exact ⟨_, .calls call.kind hcontext site (hselected.reads hcontext) method,
    .staticCall hderives hstmt hstatic hcallee⟩

end Reachable

section Accessed

variable (h : state.Justified program policy (.pointsTo (.var context base) object))
include h

theorem justified_fieldLoad {lhs : VarId} {field : FieldId}
    (hstmt : program.getStmt site = .ok (.loadField lhs (some base) field)) :
    state.Justified program policy (.flows (.instanceField object field) (.var context lhs)) := by
  obtain ⟨trail, origin, hcontext, hobject, hderives⟩ := h.pointsTo
  exact ⟨_, .flows (.instanceField hobject field) (.var hcontext lhs), .fieldLoad hderives hstmt⟩

theorem justified_fieldStore {rhs : VarId} {field : FieldId}
    (hstmt : program.getStmt site = .ok (.storeField (some base) field rhs)) :
    state.Justified program policy (.flows (.var context rhs) (.instanceField object field)) := by
  obtain ⟨trail, origin, hcontext, hobject, hderives⟩ := h.pointsTo
  exact ⟨_, .flows (.var hcontext rhs) (.instanceField hobject field), .fieldStore hderives hstmt⟩

theorem justified_arrayLoad {lhs index : VarId}
    (hstmt : program.getStmt site = .ok (.loadArray lhs base index)) :
    state.Justified program policy (.flows (.arraySlots object) (.var context lhs)) := by
  obtain ⟨trail, origin, hcontext, hobject, hderives⟩ := h.pointsTo
  exact ⟨_, .flows (.arraySlots hobject) (.var hcontext lhs), .arrayLoad hderives hstmt⟩

theorem justified_arrayStore {index rhs : VarId}
    (hstmt : program.getStmt site = .ok (.storeArray base index rhs)) :
    state.Justified program policy (.flows (.var context rhs) (.arraySlots object)) := by
  obtain ⟨trail, origin, hcontext, hobject, hderives⟩ := h.pointsTo
  exact ⟨_, .flows (.var hcontext rhs) (.arraySlots hobject), .arrayStore hderives hstmt⟩

variable {call : Call} {receiver : Receiver} {type : Ty}
  (horderly : state.Orderly program policy)
  (hstmt : program.getStmt site = .ok (.invoke call)) (hbase : call.base = some base)
  (hreceiver : state.receiver program object = .ok (receiver, type))
  (hcallee : program.callee (some type) call.kind call.target = .ok (some method))
  (hselected : state.InstanceContext policy context site receiver selected)
include horderly hstmt hbase hreceiver hcallee hselected

/-- A call on an object runs its callee, and gives the object to it. -/
theorem justified_receiverCall :
    state.Justified program policy (.calls call.kind context site selected method) ∧
      ∀ callee this, program.getMethod method = .ok callee → callee.this = some this →
        state.Justified program policy (.pointsTo (.var selected this) object) := by
  obtain ⟨trail, origin, hcontext, hobject, hderives⟩ := h.pointsTo
  obtain ⟨receiver', type', lhs, container, hreceiver', halloc, hcontainer, hclass, hheap, hmark⟩ :=
    horderly.exists_receiver hobject
  rw [hreceiver] at hreceiver'
  cases hreceiver'
  have hreads := hselected.reads hcontext hheap hmark
  rw [hclass] at hreads
  have hdispatch : Dispatches program policy trail site call origin _ method :=
    ⟨⟨lhs, type, halloc, hcallee⟩, ⟨container, hcontainer, rfl⟩⟩
  refine ⟨⟨_, .calls call.kind hcontext site hreads method,
    .receiverCall hderives hstmt hbase hdispatch⟩, ?_⟩
  intro callee this hmethod hthis
  exact ⟨_, .pointsTo (.var hreads this) hobject,
    .this hderives hstmt hbase hdispatch hmethod hthis⟩

end Accessed

section Called

variable {kind : CallKind}
  (h : state.Justified program policy (.calls kind context site selected method))
include h

theorem justified_callee : state.Justified program policy (.reachable selected method) := by
  obtain ⟨trail, trail', -, hselected, hderives⟩ := h.calls
  exact ⟨_, .reachable hselected method, .callee hderives⟩

theorem justified_argument {call : Call} (hstmt : program.getStmt site = .ok (.invoke call))
    {callee : Method} (hmethod : program.getMethod method = .ok callee) {arg param : VarId}
    (hbound : (arg, param) ∈ call.args.zip callee.params) :
    state.Justified program policy (.flows (.var context arg) (.var selected param)) := by
  obtain ⟨trail, trail', hcontext, hselected, hderives⟩ := h.calls
  exact ⟨_, .flows (.var hcontext arg) (.var hselected param),
    .argument hderives hstmt hmethod hbound⟩

theorem justified_result {call : Call} (hstmt : program.getStmt site = .ok (.invoke call))
    {returned : List VarId} (hreturned : program.returnVars method = .ok returned)
    {value result : VarId} (hvalue : value ∈ returned) (hresult : call.result = some result) :
    state.Justified program policy (.flows (.var selected value) (.var context result)) := by
  obtain ⟨trail, trail', hcontext, hselected, hderives⟩ := h.calls
  exact ⟨_, .flows (.var hselected value) (.var hcontext result),
    .result hderives hstmt hreturned hvalue hresult⟩

end Called

theorem justified_flow (hflow : state.Justified program policy (.flows source target))
    (hsource : state.Justified program policy (.pointsTo source object)) :
    state.Justified program policy (.pointsTo target object) := by
  obtain ⟨place, place', hplace, htarget, hderives⟩ := hflow.flows
  obtain ⟨named, hreads, hpoints⟩ := hsource
  cases hreads with
  | pointsTo hplace' hobject =>
    cases readsPlace_functional hplace hplace'
    exact ⟨_, .pointsTo htarget hobject, .flow hderives hpoints⟩

/-- A task is justified when what it needs is. -/
def JustifiedTask (program : Program) (policy : Policy) (state : State) : Task → Prop
  | .reach method => state.Justified program policy (.reachable method.context method.method)
  | .connect source target => state.Justified program policy (.flows source target)
  | .link kind site callee => state.Justified program policy
      (.calls kind site.context site.site callee.context callee.method)
  | .execute context site stmt =>
      state.Justified program policy (.reachable context site.method) ∧
        program.getStmt site = .ok stmt
  | .access context object site => ∃ base route stmt,
      state.Justified program policy (.pointsTo (.var context base) object) ∧
        program.getStmt site = .ok stmt ∧ stmt.route? = some (base, route) ∧ route ≠ .invoke
  | .dispatch context object receiver type site => ∃ base call,
      state.Justified program policy (.pointsTo (.var context base) object) ∧
        program.getStmt site = .ok (.invoke call) ∧ call.base = some base ∧
          state.receiver program object = .ok (receiver, type)

theorem JustifiedTask.extend (hextend : old.Extends new) {task : Task}
    (h : old.JustifiedTask program policy task) : new.JustifiedTask program policy task := by
  cases task with
  | reach method => exact Justified.extend hextend h
  | connect source target => exact Justified.extend hextend h
  | link kind site callee => exact Justified.extend hextend h
  | execute context site stmt => exact ⟨h.1.extend hextend, h.2⟩
  | access context object site =>
    obtain ⟨base, route, stmt, hpoints, hrest⟩ := h
    exact ⟨base, route, stmt, hpoints.extend hextend, hrest⟩
  | dispatch context object receiver type site =>
    obtain ⟨base, call, hpoints, hstmt, hbase, hreceiver⟩ := h
    exact ⟨base, call, hpoints.extend hextend, hstmt, hbase, hextend.receiver hreceiver⟩

/-- The bindings of a call connect arguments with parameters and returned variables with
the result. -/
theorem exists_bindings {csSite : CsSite} {callee : CsMethod} {call : Call} {method : Method}
    {returned : List VarId} (hstmt : program.getStmt csSite.site = .ok (.invoke call))
    (hmethod : program.getMethod callee.method = .ok method)
    (hreturned : program.returnVars callee.method = .ok returned) :
    ∃ tasks, bindings program csSite callee = .ok tasks ∧
      tasks.length ≤ call.args.length + returned.length ∧
      ∀ task, task ∈ tasks ↔
        (∃ arg param, (arg, param) ∈ call.args.zip method.params ∧
          task = .connect (.var csSite.context arg) (.var callee.context param)) ∨
        ∃ value result, value ∈ returned ∧ call.result = some result ∧
          task = .connect (.var callee.context value) (.var csSite.context result) := by
  have hbindings : bindings program csSite callee = .ok
      (((call.args.zip method.params).map fun pair =>
          Task.connect (.var csSite.context pair.1) (.var callee.context pair.2)) ++
        call.result.toList.flatMap fun result => returned.map fun value =>
          Task.connect (.var callee.context value) (.var csSite.context result)) := by
    unfold bindings
    simp [hstmt, Stmt.call?, hmethod, hreturned]
  refine ⟨_, hbindings, ?_, ?_⟩
  · cases call.result with
    | none =>
      simp only [Option.toList_none, List.flatMap_nil, List.append_nil, List.length_map,
        List.length_zip]
      omega
    | some result =>
      simp only [Option.toList_some, List.flatMap_cons, List.flatMap_nil, List.append_nil,
        List.length_append, List.length_map, List.length_zip]
      omega
  · intro task
    simp only [List.mem_append, List.mem_map, Prod.exists, List.mem_flatMap, Option.mem_toList]
    grind

end State

end ObjectFlow.PointsTo
