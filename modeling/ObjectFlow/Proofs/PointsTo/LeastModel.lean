import ObjectFlow.Proofs.PointsTo.Closure

/-!
# The result is the least model of the rules

What a run records, it can derive: a judgement in the tables of any state of a run stands
for one that the rules allow.  At the end the converse holds as well.  A derivation is
followed rule by rule through the tables; where a rule has two premises, both speak of the
same handle, because no two handles stand for the same thing.
-/

namespace ObjectFlow.PointsTo

namespace State

variable {program : Program} {policy : Policy} {state : State}

/-- The tables record a judgement under some handles. -/
def Knows (state : State) (named : Judgement Trail Origin) : Prop :=
  ∃ j, state.Holds j ∧ state.Reads j named

theorem Knows.reachable {trail : Trail} {method : MethodId}
    (h : state.Knows (.reachable trail method)) :
    ∃ context, state.Holds (.reachable context method) ∧ state.ReadsContext context trail := by
  obtain ⟨j, hholds, hreads⟩ := h
  cases hreads with
  | reachable hcontext => exact ⟨_, hholds, hcontext⟩

theorem Knows.pointsTo {trail : Trail} {base : VarId} {origin : Origin}
    (h : state.Knows (.pointsTo (.var trail base) origin)) :
    ∃ context object, state.Holds (.pointsTo (.var context base) object) ∧
      state.ReadsContext context trail ∧ state.ReadsObject object origin := by
  obtain ⟨j, hholds, hreads⟩ := h
  cases hreads with
  | pointsTo hplace hobject =>
    cases hplace with
    | var hcontext => exact ⟨_, _, hholds, hcontext, hobject⟩

theorem Knows.calls {kind : CallKind} {trail trail' : Trail} {site : Site} {callee : MethodId}
    (h : state.Knows (.calls kind trail site trail' callee)) :
    ∃ context selected, state.Holds (.calls kind context site selected callee) ∧
      state.ReadsContext context trail ∧ state.ReadsContext selected trail' := by
  obtain ⟨j, hholds, hreads⟩ := h
  cases hreads with
  | calls _ hcontext _ hselected => exact ⟨_, _, hholds, hcontext, hselected⟩

/-- A call that the rules dispatch on an object is the one that the solver found. -/
theorem Finished.dispatched (h : state.Finished program policy) {context : ContextId}
    {base : VarId} {object : CsObjId} {trail selectedTrail : Trail} {origin : Origin} {site : Site}
    {call : Call} {callee : MethodId} (hbase : state.Holds (.pointsTo (.var context base) object))
    (hcontext : state.ReadsContext context trail) (hobject : state.ReadsObject object origin)
    (hstmt : program.getStmt site = .ok (.invoke call)) (howner : call.base = some base)
    (hdispatch : Dispatches program policy trail site call origin selectedTrail callee) :
    ∃ selected, state.ReadsContext selected selectedTrail ∧
      state.Holds (.calls call.kind context site selected callee) ∧
      ∀ method this, program.getMethod callee = .ok method → method.this = some this →
        state.Holds (.pointsTo (.var selected this) object) := by
  have hroute : (Stmt.invoke call).route? = some (base, .invoke) := by
    simp [Stmt.route?, howner]
  obtain ⟨receiver, type, hreceiver, hcalls⟩ := h.accessed hbase hstmt hroute
  obtain ⟨receiver', type', lhs', container, hreceiver', halloc, hcontainer, hclass, hheap,
      hmark⟩ :=
    h.invariant.orderly.exists_receiver hobject
  rw [hreceiver] at hreceiver'
  cases hreceiver'
  obtain ⟨lhs'', type'', halloc', hcallee⟩ := hdispatch.resolved
  rw [halloc] at halloc'
  cases halloc'
  obtain ⟨container', hcontainer', hselected⟩ := hdispatch.selected
  rw [hcontainer] at hcontainer'
  cases hcontainer'
  obtain ⟨selected, hinstance, hthis, hcall⟩ := hcalls callee hcallee
  refine ⟨selected, ?_, hcall.holds,
    fun method this hmethod hname => h.holds_of_points (hthis method this hmethod hname)⟩
  rw [hselected, ← hclass]
  exact hinstance.reads hcontext hheap hmark

/-- At the end of a run the tables record all that the rules allow. -/
theorem Finished.knows_of_derives (h : state.Finished program policy)
    {named : Judgement Trail Origin} (hderives : Derives program policy named) :
    state.Knows named := by
  induction hderives with
  | entry hentry => exact ⟨_, h.entered _ hentry, .reachable (readsContext_root state) _⟩
  | alloc _ hstmt ih =>
    obtain ⟨context, hreachable, hcontext⟩ := ih.reachable
    obtain ⟨object, hallocated, hpoints⟩ := h.executed hreachable hstmt
    exact ⟨_, h.holds_of_points hpoints, .pointsTo (.var hcontext _) (hallocated.reads hcontext)⟩
  | copy _ hstmt ih =>
    obtain ⟨context, hreachable, hcontext⟩ := ih.reachable
    exact ⟨_, (h.executed hreachable hstmt).holds, .flows (.var hcontext _) (.var hcontext _)⟩
  | staticLoad _ hstmt ih =>
    obtain ⟨context, hreachable, hcontext⟩ := ih.reachable
    exact ⟨_, (h.executed hreachable hstmt).holds, .flows (.staticField _) (.var hcontext _)⟩
  | staticStore _ hstmt ih =>
    obtain ⟨context, hreachable, hcontext⟩ := ih.reachable
    exact ⟨_, (h.executed hreachable hstmt).holds, .flows (.var hcontext _) (.staticField _)⟩
  | staticCall _ hstmt hstatic hcallee ih =>
    obtain ⟨context, hreachable, hcontext⟩ := ih.reachable
    obtain ⟨selected, hselected, hcall⟩ := h.executed hreachable hstmt hstatic _ hcallee
    exact ⟨_, hcall.holds, .calls _ hcontext _ (hselected.reads hcontext) _⟩
  | fieldLoad _ hstmt ih =>
    obtain ⟨context, object, hbase, hcontext, hobject⟩ := ih.pointsTo
    exact ⟨_, (h.accessed hbase hstmt rfl).holds,
      .flows (.instanceField hobject _) (.var hcontext _)⟩
  | fieldStore _ hstmt ih =>
    obtain ⟨context, object, hbase, hcontext, hobject⟩ := ih.pointsTo
    exact ⟨_, (h.accessed hbase hstmt rfl).holds,
      .flows (.var hcontext _) (.instanceField hobject _)⟩
  | arrayLoad _ hstmt ih =>
    obtain ⟨context, object, hbase, hcontext, hobject⟩ := ih.pointsTo
    exact ⟨_, (h.accessed hbase hstmt rfl).holds, .flows (.arraySlots hobject) (.var hcontext _)⟩
  | arrayStore _ hstmt ih =>
    obtain ⟨context, object, hbase, hcontext, hobject⟩ := ih.pointsTo
    exact ⟨_, (h.accessed hbase hstmt rfl).holds, .flows (.var hcontext _) (.arraySlots hobject)⟩
  | receiverCall _ hstmt howner hdispatch ih =>
    obtain ⟨context, object, hbase, hcontext, hobject⟩ := ih.pointsTo
    obtain ⟨selected, hselected, hcall, -⟩ :=
      h.dispatched hbase hcontext hobject hstmt howner hdispatch
    exact ⟨_, hcall, .calls _ hcontext _ hselected _⟩
  | this _ hstmt howner hdispatch hmethod hthis ih =>
    obtain ⟨context, object, hbase, hcontext, hobject⟩ := ih.pointsTo
    obtain ⟨selected, hselected, -, hreceived⟩ :=
      h.dispatched hbase hcontext hobject hstmt howner hdispatch
    exact ⟨_, hreceived _ _ hmethod hthis, .pointsTo (.var hselected _) hobject⟩
  | callee _ ih =>
    obtain ⟨context, selected, hcall, -, hselected⟩ := ih.calls
    exact ⟨_, (h.invariant.covered _ hcall).1.holds, .reachable hselected _⟩
  | argument _ hstmt hmethod hbound ih =>
    obtain ⟨context, selected, hcall, hcontext, hselected⟩ := ih.calls
    exact ⟨_, ((h.invariant.covered _ hcall).2.1 _ _ _ _ hstmt hmethod hbound).holds,
      .flows (.var hcontext _) (.var hselected _)⟩
  | result _ hstmt hreturned hvalue hresult ih =>
    obtain ⟨context, selected, hcall, hcontext, hselected⟩ := ih.calls
    exact ⟨_, ((h.invariant.covered _ hcall).2.2 _ _ _ _ hstmt hreturned hvalue hresult).holds,
      .flows (.var hselected _) (.var hcontext _)⟩
  | flow _ _ ihFlow ihSource =>
    obtain ⟨_, hflow, hreads⟩ := ihFlow
    obtain ⟨_, hpoints, hreads'⟩ := ihSource
    cases hreads with
    | flows hsource htarget =>
      cases hreads' with
      | pointsTo hplace hobject =>
        cases readsPlace_injective hsource hplace
        exact ⟨_, h.flow hflow hpoints, .pointsTo htarget hobject⟩

/-- What a state of a run records stands for what the rules allow, and in the end the tables
record exactly that.  Every edge of the flow graph is one of these judgements. -/
theorem least_model (hreaches : Reaches program policy state) :
    (∀ j, state.Holds j → ∃ named, state.Reads j named ∧ Derives program policy named) ∧
      (∀ a b, state.flow.hasEdge a b = true → ∃ source target, state.pointers.get a = .ok source ∧
        state.pointers.get b = .ok target ∧ state.Holds (.flows source target)) ∧
      (state.phase = .done → ∀ named,
        Derives program policy named ↔ ∃ j, state.Holds j ∧ state.Reads j named) := by
  refine ⟨fun j hj => hreaches.justified hj, fun a b hedge => hreaches.linked.exists_flows hedge,
    fun hdone named => ⟨(hreaches.finished hdone).knows_of_derives, ?_⟩⟩
  rintro ⟨j, hj, hreads⟩
  obtain ⟨named', hreads', hderives⟩ := hreaches.justified hj
  rwa [reads_functional hreads hreads']

end State

/-- In the end of the run on `boxProgram`, what its tables record is what the rules allow. -/
theorem least_model_box : ∃ state, State.Reaches boxProgram ⟨.object 1, 0⟩ state ∧
    state.phase = .done ∧ ∀ named, Derives boxProgram ⟨.object 1, 0⟩ named ↔
      ∃ j, state.Holds j ∧ state.Reads j named := by
  obtain ⟨final, -, hreaches, hdone⟩ := State.exists_solve boxProgram ⟨.object 1, 0⟩
  exact ⟨final, hreaches, hdone, (State.least_model hreaches).2.2 hdone⟩

end ObjectFlow.PointsTo
