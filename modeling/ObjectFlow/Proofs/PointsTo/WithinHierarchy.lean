import ObjectFlow.Proofs.CallGraph.Hierarchy
import ObjectFlow.Proofs.PointsTo.Soundness
import ObjectFlow.Proofs.Program.Locals

/-!
# The points-to call graph lies within that of the hierarchy

The analysis dispatches a call on the objects that its receiver points to, the survey of the
hierarchy on all classes below the class that the call names.  When methods mention only their
own variables and receivers point to no objects of other classes, the survey finds every call
that the analysis finds.

A call is found through a variable, not through its method.  What carries the argument is that
a variable that points to anything belongs to a method that the survey finds.
-/

namespace ObjectFlow.PointsTo

variable {program : Program} {policy : Policy}

/-- The survey finds the methods that mention the variable of a place. -/
def Place.Surveyed (program : Program) {κ ω : Type} : Place κ ω → Prop
  | .var _ v => ∀ id, program.Mentions id v → program.Surveyed id
  | _ => True

/-- What a judgement says about methods and calls, the survey finds as well. -/
def Judgement.Within (program : Program) : Judgement Trail Origin → Prop
  | .reachable _ method => program.Surveyed method
  | .pointsTo place _ => place.Surveyed program
  | .flows _ target => target.Surveyed program
  | .calls kind _ site _ callee =>
    program.Surveyed site.method ∧ program.MayCall kind site callee

/-- Receivers point to no objects of other classes than those below the class that the call
names, as far as the rules derive it. -/
def ReceiversBelow (program : Program) (policy : Policy) : Prop :=
  ∀ {site call base trail origin lhs type c}, program.getStmt site = .ok (.invoke call) →
    call.kind = .virtual ∨ call.kind = .interface → call.base = some base →
    Derives program policy (.pointsTo (.var trail base) origin) →
    program.getStmt origin.alloc = .ok (.alloc lhs type) → type.class? = some c →
    program.Below call.target.declaringClass c

/-- A call on an object is one that the hierarchy allows. -/
theorem Dispatches.mayCall {context trail : Trail} {site : Site} {call : Call} {object : Origin}
    {callee : MethodId} {base : VarId} (hreceivers : ReceiversBelow program policy)
    (h : Dispatches program policy context site call object trail callee)
    (hstmt : program.getStmt site = .ok (.invoke call)) (hbase : call.base = some base)
    (hpoints : Derives program policy (.pointsTo (.var context base) object)) :
    program.MayCall call.kind site callee := by
  obtain ⟨lhs, type, halloc, hcallee⟩ := h.resolved
  refine ⟨call, hstmt, rfl, Program.mayRun_of_callee hcallee fun hkind => ?_⟩
  cases hclass : type.class? with
  | none =>
    -- Arrays and numbers have the methods of the class that the call names.
    have hnamed : Program.dispatchClass (some type) call.target = call.target.declaringClass := by
      simp [Program.dispatchClass, hclass]
    rw [hnamed]
    exact .refl
  | some c =>
    have hnamed : Program.dispatchClass (some type) call.target = c := by
      simp [Program.dispatchClass, hclass]
    rw [hnamed]
    exact hreceivers hstmt hkind hbase hpoints halloc hclass

/-- Only methods that the survey finds mention a variable of one of them. -/
theorem surveyed_of_mentions (hlocal : program.Local) {id : MethodId} {v : VarId}
    (hsurveyed : program.Surveyed id) (hmentions : program.Mentions id v) :
    ∀ id', program.Mentions id' v → program.Surveyed id' := by
  intro id' hmentions'
  rw [← hlocal.eq_of_mentions hmentions hmentions']
  exact hsurveyed

/-- What the rules allow stays within what the survey finds. -/
theorem Derives.within (hlocal : program.Local) (hreceivers : ReceiversBelow program policy)
    {j : Judgement Trail Origin} (h : Derives program policy j) : j.Within program := by
  have hmentions := fun {site stmt v} (hstmt : program.getStmt site = .ok stmt)
    (hv : v ∈ stmt.uses ++ stmt.writes?.toList) => Program.mentions_of_getStmt hstmt hv
  have hoperand := fun {site stmt v} (hsurveyed : program.Surveyed site.method)
    (hstmt : program.getStmt site = .ok stmt) (hv : v ∈ stmt.uses ++ stmt.writes?.toList) =>
    surveyed_of_mentions hlocal hsurveyed (hmentions hstmt hv)
  induction h with
  | entry hentry => exact .entry hentry
  | alloc _ hstmt ih => exact hoperand ih hstmt (by simp [Stmt.writes?])
  | copy _ hstmt ih => exact hoperand ih hstmt (by simp [Stmt.writes?])
  | staticLoad _ hstmt ih => exact hoperand ih hstmt (by simp [Stmt.writes?])
  | staticStore => trivial
  | staticCall _ hstmt hstatic hcallee ih =>
    refine ⟨ih, _, hstmt, rfl, Program.mayRun_of_callee hcallee fun hkind => ?_⟩
    simp only [Call.isStatic, beq_iff_eq] at hstatic
    simp [hstatic] at hkind
  | fieldLoad _ hstmt ih =>
    have hsite := ih _ (hmentions hstmt (by simp [Stmt.uses]))
    exact hoperand hsite hstmt (by simp [Stmt.writes?])
  | fieldStore => trivial
  | arrayLoad _ hstmt ih =>
    have hsite := ih _ (hmentions hstmt (by simp [Stmt.uses]))
    exact hoperand hsite hstmt (by simp [Stmt.writes?])
  | arrayStore => trivial
  | receiverCall hpoints hstmt hbase hdispatch ih =>
    have hsite := ih _ (hmentions hstmt (by simp [Stmt.uses, hbase]))
    exact ⟨hsite, hdispatch.mayCall hreceivers hstmt hbase hpoints⟩
  | this hpoints hstmt hbase hdispatch hmethod hthis ih =>
    have hsite := ih _ (hmentions hstmt (by simp [Stmt.uses, hbase]))
    have hcall := hdispatch.mayCall hreceivers hstmt hbase hpoints
    exact surveyed_of_mentions hlocal (.call hsite hcall)
      (Program.mentions_of_local hmethod (by simp [hthis]))
  | callee _ ih => exact .call ih.1 ih.2
  | argument _ _ hmethod hbound ih =>
    obtain ⟨-, hparam⟩ := List.of_mem_zip hbound
    exact surveyed_of_mentions hlocal (.call ih.1 ih.2)
      (Program.mentions_of_local hmethod (by simp [hparam]))
  | result _ hstmt _ _ hresult ih => exact hoperand ih.1 hstmt (by simp [Stmt.writes?, hresult])
  | flow _ _ ihFlow _ => exact ihFlow

namespace Result

variable {result : Result}

/-- Receivers point to no objects of other classes than those below the class that the call
names. -/
def ReceiversBelow (program : Program) (result : Result) : Prop :=
  ∀ site call base objects object entry c, program.getStmt site = .ok (.invoke call) →
    call.kind = .virtual ∨ call.kind = .interface → call.base = some base →
    result.pointsTo base = .ok objects → object ∈ objects →
    result.state.heap.get object = .ok entry → entry.type.class? = some c →
    program.Below call.target.declaringClass c

/-- The objects of a result are those that the rules derive. -/
theorem Complete.receiversBelow (h : result.Complete program policy)
    (hreceivers : result.ReceiversBelow program) :
    PointsTo.ReceiversBelow program policy := by
  intro site call base trail origin lhs type c hstmt hkind hbase hpoints halloc hclass
  obtain ⟨objects, object, hobjects, hmem, hget⟩ :=
    @mayPointTo program policy result h _ _ _ ⟨origin.alloc, type⟩ hpoints ⟨rfl, lhs, halloc⟩
  exact hreceivers site call base objects object _ c hstmt hkind hbase hobjects hmem hget hclass

theorem holds_of_mem_edges_callGraph {edge : CallEdge Site MethodId}
    (h : edge ∈ result.callGraph.edges.toList) : ∃ context selected,
      result.state.Holds (.calls edge.kind context edge.site selected edge.callee) := by
  rw [edges_callGraph, Interner.toList, Array.mem_toList_iff] at h
  rcases Interner.mem_foldl_insert_cases h with hold | ⟨found, hfound, rfl⟩
  · simp at hold
  · obtain ⟨kind, ⟨context, site⟩, ⟨selected, callee⟩⟩ := found
    exact ⟨context, selected, State.holds_calls_iff.mpr (Array.mem_toList_iff.mp hfound)⟩

/-- The calls of a result are calls that the survey finds. -/
theorem Complete.within_surveys (h : result.Complete program policy) (hlocal : program.Local)
    (hreceivers : result.ReceiversBelow program) {graph : CallGraph Site MethodId}
    (hgraph : graph.Surveys program) :
    (∀ edge ∈ result.callGraph.edges.toList, edge ∈ graph.edges.toList) ∧
      ∀ method ∈ result.reachableMethods, method ∈ graph.reachable.toList := by
  constructor
  · intro edge hedge
    obtain ⟨context, selected, hholds⟩ := holds_of_mem_edges_callGraph hedge
    obtain ⟨named, hreads, hderives⟩ := h.reaches.justified hholds
    cases hreads with
    | calls =>
      exact (hgraph.edges edge).mpr (hderives.within hlocal (h.receiversBelow hreceivers))
  · intro method hmethod
    obtain ⟨context, hholds⟩ := mem_reachableMethods_iff.mp hmethod
    obtain ⟨named, hreads, hderives⟩ := h.reaches.justified hholds
    cases hreads with
    | reachable =>
      exact (hgraph.reachable method).mpr (hderives.within hlocal (h.receiversBelow hreceivers))

end Result

/-- The call graph of the points-to analysis lies within that of the hierarchy, for a program
whose methods mention only their own variables, when receivers point only to objects of classes
below those that the calls name. -/
theorem callGraph_within_hierarchy (program : Program) (config : Config.PointsTo)
    (hvalid : config.validate = .ok ()) (hlocal : program.Local) :
    ∃ result graph, run program config = .ok result ∧
      CallGraph.ofHierarchy program = .ok graph ∧
      (result.ReceiversBelow program →
        (∀ edge ∈ result.callGraph.edges.toList, edge ∈ graph.edges.toList) ∧
          ∀ method ∈ result.reachableMethods, method ∈ graph.reachable.toList) := by
  obtain ⟨result, hrun, hcomplete⟩ := exists_run program hvalid
  obtain ⟨graph, hgraph, hsurveys⟩ := CallGraph.exists_ofHierarchy program
  exact ⟨result, graph, hrun, hgraph, fun hreceivers =>
    hcomplete.within_surveys hlocal hreceivers hsurveys⟩

/-- An interface, a class that implements it and a class below that one, whose object is called
through the interface. -/
def shapeListing : Listing where
  classes := #[
    { id := ⟨0⟩, name := "Shape", superClass := none, interfaces := [], isInterface := true,
      isAbstract := true, methods := [⟨0⟩] },
    { id := ⟨1⟩, name := "Plane", superClass := none, interfaces := [⟨0⟩], isInterface := false,
      isAbstract := false, methods := [⟨1⟩] },
    { id := ⟨2⟩, name := "Square", superClass := some ⟨1⟩, interfaces := [], isInterface := false,
      isAbstract := false, methods := [⟨2⟩] }]
  methods := #[
    { id := ⟨0⟩, name := "draw", declaringClass := ⟨0⟩, subsignature := "draw()",
      isStatic := false, isAbstract := true, this := none, params := [], stmts := #[] },
    { id := ⟨1⟩, name := "draw", declaringClass := ⟨1⟩, subsignature := "draw()",
      isStatic := false, isAbstract := false, this := some ⟨0⟩, params := [], stmts := #[] },
    { id := ⟨2⟩, name := "main", declaringClass := ⟨2⟩, subsignature := "main()", isStatic := true,
      isAbstract := false, this := none, params := [],
      stmts := #[.alloc ⟨1⟩ (.object ⟨2⟩),
        .invoke { kind := .interface, target := ⟨⟨0⟩, "draw()"⟩, base := some ⟨1⟩, args := [],
                  result := none }] }]
  vars := #[⟨⟨0⟩, "this", .object ⟨1⟩, ⟨1⟩⟩, ⟨⟨1⟩, "shape", .object ⟨0⟩, ⟨2⟩⟩]
  entries := [⟨2⟩]

/-- The program of `shapeListing`. -/
def shapeProgram : Program where
  listing := shapeListing
  sound := by decide
  index := Index.ofListing shapeListing
  index_eq := rfl

/-- In `shapeProgram` the call through the interface stays within the hierarchy. -/
theorem callGraph_within_hierarchy_shape :
    Config.PointsTo.standard.validate = .ok () ∧ shapeProgram.Local ∧
      ∃ result graph, run shapeProgram .standard = .ok result ∧
        CallGraph.ofHierarchy shapeProgram = .ok graph ∧
        result.ReceiversBelow shapeProgram ∧
        (∀ edge ∈ result.callGraph.edges.toList, edge ∈ graph.edges.toList) ∧
        ∀ method ∈ result.reachableMethods, method ∈ graph.reachable.toList := by
  have hvalid : Config.PointsTo.standard.validate = .ok () := by decide
  have hlocal : shapeProgram.Local := by decide
  obtain ⟨result, graph, hrun, hgraph, hwithin⟩ :=
    callGraph_within_hierarchy shapeProgram .standard hvalid hlocal
  obtain ⟨result', hrun', hcomplete⟩ := exists_run shapeProgram hvalid
  obtain rfl : result = result' := Except.ok.inj (hrun.symm.trans hrun')
  have hbelow : shapeProgram.Below ⟨0⟩ ⟨2⟩ := by
    have hplane : shapeProgram.Link ⟨0⟩ ⟨1⟩ := ⟨_, _, rfl, rfl, by decide⟩
    have hsquare : shapeProgram.Link ⟨1⟩ ⟨2⟩ := ⟨_, _, rfl, rfl, by decide⟩
    exact Relation.ReflTransGen.refl.tail hplane |>.tail hsquare
  have hreceivers : result.ReceiversBelow shapeProgram := by
    intro site call base objects object entry c hstmt _ _ _ _ hentry hclass
    obtain ⟨stack, hinv⟩ := hcomplete.reaches.exists_invariant
    obtain ⟨lhs, halloc⟩ := hinv.orderly.objects entry
      (Array.mem_iff_getElem?.mpr ⟨_, Handle.lookup_eq_ok_iff.mp hentry⟩)
    -- The program has one allocation and one call.
    obtain ⟨-, -, htype⟩ : entry.alloc = ⟨⟨2⟩, 0⟩ ∧ lhs = ⟨1⟩ ∧ entry.type = .object ⟨2⟩ := by
      simpa [shapeProgram, shapeListing, Listing.sites, Method.sites] using
        Program.mem_listing_sites_iff.mpr halloc
    obtain ⟨-, rfl⟩ : site = ⟨⟨2⟩, 1⟩ ∧
        call = ⟨.interface, ⟨⟨0⟩, "draw()"⟩, some ⟨1⟩, [], none⟩ := by
      simpa [shapeProgram, shapeListing, Listing.sites, Method.sites] using
        Program.mem_listing_sites_iff.mpr hstmt
    rw [htype] at hclass
    cases hclass
    exact hbelow
  exact ⟨hvalid, hlocal, result, graph, hrun, hgraph, hreceivers, hwithin hreceivers⟩

end ObjectFlow.PointsTo
