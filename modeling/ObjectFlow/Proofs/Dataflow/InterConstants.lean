import Mathlib.Tactic.GCongr
import Mathlib.Tactic.Ring
import ObjectFlow.Proofs.Dataflow.Loads
import ObjectFlow.Proofs.Dataflow.Termination

/-!
# The equations of constant propagation through calls and the heap

What each edge of the supergraph does to a fact, and the equations as a whole.  They never
fault and are lawful, so that the solver comes to its end with a solution.
-/

namespace ObjectFlow.Dataflow.InterConstants

open Supergraph (Built IsEdge)

variable {program : Program} {config : Config.Dataflow} {aliases : HeapAliases} {site : Site}

section Along

variable {calls : CallGraph Site MethodId} {graph : Supergraph} {source target : Node}

/-- The facts of arguments as facts of the parameters that they are bound to. -/
def boundFact (args params : List VarId) (fact : Fact) : Fact :=
  (args.zip params).foldl (fun bound (arg, param) => bound.update param (fact.get arg)) {}

/-- The value of a call, from the values of the variables that its callee returns. -/
def returnedValue (returned : List VarId) (fact : Fact) : Value :=
  returned.foldl (fun value v => value.meet (fact.get v)) .undefined

/-- What the callee knows when it returns, as a fact about the result of a call. -/
def resultFact (program : Program) (returned : List VarId) (result : Option VarId) (fact : Fact) :
    Fact :=
  match result with
  | none => {}
  | some result =>
    if program.holdsInt result then ({} : Fact).update result (returnedValue returned fact) else {}

/-- A call leaves all that the caller knows, except for its result. -/
def keptFact (result : Option VarId) (fact : Fact) : Fact :=
  match result with
  | none => fact
  | some result => fact.remove result

theorem along_callToReturn {call : Call} (hstmt : program.getStmt site = .ok (.invoke call)) :
    along program ⟨.ofSite site, target, .callToReturn⟩ = .ok (keptFact call.result) := by
  have hsite : (Node.ofSite site).site? = some site := Node.site?_eq_some_iff.mpr rfl
  have hresult : resultOf program site = .ok call.result := by
    simp [resultOf, hstmt, Stmt.call?]
  simp only [along, hsite, hresult, ok_bind]
  cases call.result <;> rfl

theorem along_call {call : Call} {callee : MethodId} {found : Method}
    (hstmt : program.getStmt site = .ok (.invoke call))
    (hfound : program.getMethod callee = .ok found) :
    along program ⟨source, target, .call site callee⟩ = .ok (boundFact call.args found.params) := by
  simp only [along, hstmt, hfound, ok_bind]
  rfl

theorem result_lt {call : Call} {result : VarId} (hstmt : program.getStmt site = .ok (.invoke call))
    (hresult : call.result = some result) : result.index < program.listing.vars.size :=
  Constants.writes_lt hstmt hresult

theorem along_ret {call : Call} {callee : MethodId} {returned : List VarId}
    (hstmt : program.getStmt site = .ok (.invoke call))
    (hreturned : program.returnVars callee = .ok returned) :
    along program ⟨source, target, .ret site callee⟩ =
      .ok (resultFact program returned call.result) := by
  have hresultOf : resultOf program site = .ok call.result := by
    simp [resultOf, hstmt, Stmt.call?]
  cases hresult : call.result with
  | none =>
    simp only [along, hresultOf, hresult, ok_bind]
    rfl
  | some result =>
    simp only [along, hresultOf, hresult, ok_bind, hreturned,
      Constants.tracks_of_lt (result_lt hstmt hresult)]
    rfl

theorem tidy_boundFact {vars : Nat} {args params : List VarId}
    (h : ∀ param ∈ params, param.index < vars) (fact : Fact) :
    (boundFact args params fact).Tidy vars := by
  unfold boundFact
  have hpairs : ∀ pair ∈ args.zip params, pair.2.index < vars :=
    fun pair hpair => h pair.2 (List.of_mem_zip hpair).2
  generalize args.zip params = pairs at hpairs
  suffices hfold : ∀ bound : Fact, bound.Tidy vars → (pairs.foldl
      (fun bound (arg, param) => bound.update param (fact.get arg)) bound).Tidy vars by
    exact hfold _ Fact.tidy_empty
  induction pairs with
  | nil => exact fun _ hbound => hbound
  | cons pair pairs ih =>
    obtain ⟨hpair, hrest⟩ := List.forall_mem_cons.mp hpairs
    exact fun bound hbound => ih hrest _ (hbound.update hpair _)

theorem tidy_resultFact {call : Call} (hstmt : program.getStmt site = .ok (.invoke call))
    (returned : List VarId) (fact : Fact) :
    (resultFact program returned call.result fact).Tidy program.listing.vars.size := by
  unfold resultFact
  split
  · exact Fact.tidy_empty
  · next result hresult =>
    split
    · exact Fact.tidy_empty.update (result_lt hstmt hresult) _
    · exact Fact.tidy_empty

theorem tidy_keptFact {vars : Nat} {fact : Fact} (h : fact.Tidy vars) (result : Option VarId) :
    (keptFact result fact).Tidy vars := by
  unfold keptFact
  split
  · exact h
  · exact h.remove _

/-- A step inside a method passes a call exactly when it leaves one. -/
theorem innerKind_ofStmts {method : MethodId} {found : Method} {source target : Node}
    (hfound : program.getMethod method = .ok found)
    (hsuccs : target ∈ (Cfg.ofStmts method found.stmts).succs source) :
    Supergraph.innerKind (.ofStmts method found.stmts) source = .normal ∨
      ∃ site call, source = .ofSite site ∧ program.getStmt site = .ok (.invoke call) ∧
        Supergraph.innerKind (.ofStmts method found.stmts) source = .callToReturn := by
  unfold Supergraph.innerKind
  split
  · next hcall =>
    obtain ⟨stmt, hstmt, hisCall⟩ : ∃ stmt,
        (Cfg.ofStmts method found.stmts).stmt? source = some stmt ∧ stmt.isCall = true := by
      cases hstmt : (Cfg.ofStmts method found.stmts).stmt? source with
      | none => simp [hstmt] at hcall
      | some stmt => exact ⟨stmt, rfl, by simpa [hstmt] using hcall⟩
    obtain ⟨index, hindex, hstmt⟩ := Option.bind_eq_some_iff.mp hstmt
    obtain ⟨call, rfl⟩ := Supergraph.isCall_iff.mp hisCall
    obtain ⟨hmethod, -⟩ := Cfg.mem_nodes_iff.mp (Cfg.mem_nodes_of_mem_succs hsuccs).1
    refine .inr ⟨⟨method, index⟩, call, Node.site?_eq_some_iff.mp ?_,
      Program.getStmt_eq_ok_iff.mpr ⟨found, hfound, hstmt⟩, rfl⟩
    have hsame : source.method = method := hmethod
    simp [Node.site?, hindex, hsame]
  · exact .inl rfl

/-- What an edge does can always be told. -/
theorem exists_along (hbuilt : Built program calls graph) {edge : SuperEdge}
    (hedge : IsEdge program calls edge) :
    ∃ f, along program edge = .ok f ∧ ∀ fact : Fact, fact.Tidy program.listing.vars.size →
      (f fact).Tidy program.listing.vars.size := by
  cases hedge with
  | inner _ hfound hsuccs =>
    rcases innerKind_ofStmts hfound hsuccs with hkind | ⟨site, call, rfl, hstmt, hkind⟩
    · exact ⟨id, by rw [hkind]; rfl, fun _ h => h⟩
    · exact ⟨_, by rw [hkind, along_callToReturn hstmt], fun _ h => tidy_keptFact h _⟩
  | call _ hstmt _ hreachable =>
    obtain ⟨found, hfound⟩ := hbuilt.exists_getMethod hreachable
    refine ⟨_, along_call hstmt hfound, fun fact _ => tidy_boundFact (fun param hparam => ?_) fact⟩
    exact program.inRange.method_local (Program.getMethod_eq_ok_iff.mp hfound) _ (by simp [hparam])
  | ret _ hfound hstmt _ hreachable =>
    obtain ⟨callee, hcallee⟩ := hbuilt.exists_getMethod hreachable
    obtain ⟨returned, hreturned, -⟩ :=
      Program.exists_returnVars (Program.lt_of_getMethod hcallee)
    have hsite := Program.getStmt_eq_ok_iff.mpr ⟨_, hfound, hstmt⟩
    exact ⟨_, along_ret hsite hreturned, fun fact _ => tidy_resultFact hsite returned fact⟩

end Along

section Problem

variable {calls : CallGraph Site MethodId} {graph : Supergraph}

/-- The parts of the equations over a supergraph. -/
structure Represents (program : Program) (config : Config.Dataflow) (aliases : HeapAliases)
    (graph : Supergraph) (problem : Interprocedural.Problem Fact) : Prop where
  nodes : problem.nodes = graph.nodes
  initial : problem.initial = {}
  meet : problem.meet = Fact.meetInto
  succs : problem.succs = graph.succs
  boundary : (graph.entries.filter graph.methods.contains).mapM (fun method => do
    return (Node.entry method, ← Constants.boundaryFact program method)) = .ok problem.boundary
  inEdges : ∀ node ∈ graph.nodes, (graph.inEdges node).mapM (fun edge => do
    return (edge.source, ← along program edge)) = .ok (problem.inEdges node)
  noEdges : ∀ node, node ∉ graph.nodes → problem.inEdges node = []
  transfer : ∀ node ∈ graph.nodes,
    transfer program config aliases node = .ok (problem.transfer node)
  noTransfer : ∀ node, node ∉ graph.nodes → problem.transfer node = fun _ => id
  dependents : ∀ node ∈ graph.nodes,
    dependents program config aliases node = .ok (problem.dependents node)

theorem represents_of_problem {problem : Interprocedural.Problem Fact}
    (h : InterConstants.problem program config aliases graph = .ok problem) :
    Represents program config aliases graph problem := by
  obtain ⟨edges, hedges, h⟩ := bind_eq_ok_iff.mp h
  obtain ⟨transfers, htransfers, h⟩ := bind_eq_ok_iff.mp h
  obtain ⟨rows, hrows, h⟩ := bind_eq_ok_iff.mp h
  obtain ⟨boundary, hboundary, h⟩ := bind_eq_ok_iff.mp h
  cases h
  refine ⟨rfl, rfl, rfl, rfl, hboundary, ?_, ?_, ?_, ?_, ?_⟩
  · intro node hnode
    obtain ⟨row, hrow, hlookup⟩ := lookup_of_mapM hedges hnode
    simp only [hlookup, Option.getD_some]
    exact hrow
  · intro node hnode
    simp only [lookup_eq_none_of_mapM hedges hnode, Option.getD_none]
  · intro node hnode
    obtain ⟨f, hf, hlookup⟩ := lookup_of_mapM htransfers hnode
    simp only [hlookup, Option.getD_some]
    exact hf
  · intro node hnode
    simp only [lookup_eq_none_of_mapM htransfers hnode, Option.getD_none]
  · intro node hnode
    obtain ⟨g, hg, hlookup⟩ := lookup_of_mapM hrows hnode
    simp only [hlookup, Option.getD_some]
    exact hg

/-- A node of the supergraph that stands for a statement has one. -/
theorem exists_getStmt (hbuilt : Built program calls graph) {node : Node}
    (hnode : node ∈ graph.nodes) (site : Site) (hsite : node.site? = some site) :
    ∃ stmt, program.getStmt site = .ok stmt := by
  obtain rfl := Node.site?_eq_some_iff.mp hsite
  exact (hbuilt.ofSite_mem_nodes_iff.mp hnode).2

/-- The equations can always be set up. -/
theorem exists_problem (hbuilt : Built program calls graph) (hpaired : Paired program aliases) :
    ∃ problem, InterConstants.problem program config aliases graph = .ok problem := by
  have hedges : ∀ node ∈ graph.nodes, ∃ row, (do
      return (node, ← (graph.inEdges node).mapM fun edge => do
        return (edge.source, ← along program edge))) =
          (.ok row : Except Fault (Node × List (Node × (Fact → Fact)))) := by
    intro node hnode
    have hrow : ∀ edge ∈ graph.inEdges node, ∃ sent, (do
        return (edge.source, ← along program edge)) =
          (.ok sent : Except Fault (Node × (Fact → Fact))) := by
      intro edge hedge
      obtain ⟨f, hf, -⟩ := exists_along hbuilt (hbuilt.mem_inEdges_iff.mp hedge).1
      exact ⟨_, by rw [hf]; rfl⟩
    obtain ⟨row, hrow⟩ := exists_mapM_ok hrow
    exact ⟨_, by rw [hrow]; rfl⟩
  have htransfers : ∀ node ∈ graph.nodes, ∃ row,
      (do return (node, ← transfer program config aliases node)) =
        (.ok row : Except Fault (Node × (Facts Fact → Fact → Fact))) := by
    intro node hnode
    obtain ⟨f, hf, -⟩ := exists_transfer hpaired (exists_getStmt hbuilt hnode)
    exact ⟨_, by rw [hf]; rfl⟩
  have hdependents : ∀ node ∈ graph.nodes, ∃ row,
      (do return (node, ← dependents program config aliases node)) =
        (.ok row : Except Fault (Node × (Facts Fact → Fact → List Node))) := by
    intro node hnode
    cases hsite : node.site? with
    | none => exact ⟨(node, fun _ _ => []), by simp [dependents, hsite]⟩
    | some site =>
      obtain ⟨stmt, hstmt⟩ := exists_getStmt hbuilt hnode site hsite
      obtain ⟨g, hg, -⟩ := exists_dependents hpaired hstmt
      obtain rfl := Node.site?_eq_some_iff.mp hsite
      exact ⟨_, by rw [hg]; rfl⟩
  have hboundary : ∀ method ∈ graph.entries.filter graph.methods.contains, ∃ row,
      (do return (Node.entry method, ← Constants.boundaryFact program method)) =
        (.ok row : Except Fault (Node × Fact)) := by
    intro method hmethod
    obtain ⟨-, hcontains⟩ := List.mem_filter.mp hmethod
    rw [List.contains_iff_mem, hbuilt.methods_eq] at hcontains
    obtain ⟨found, hfound⟩ := hbuilt.exists_getMethod hcontains
    obtain ⟨fact, hfact, -⟩ := Constants.exists_boundaryFact hfound
    exact ⟨_, by rw [hfact]; rfl⟩
  obtain ⟨edges, hedges⟩ := exists_mapM_ok hedges
  obtain ⟨transfers, htransfers⟩ := exists_mapM_ok htransfers
  obtain ⟨rows, hrows⟩ := exists_mapM_ok hdependents
  obtain ⟨boundary, hboundary⟩ := exists_mapM_ok hboundary
  exact ⟨_, by rw [problem, hedges, ok_bind, htransfers, ok_bind, hrows, ok_bind, hboundary]; rfl⟩

namespace Represents

variable {problem : Interprocedural.Problem Fact}

theorem mem_boundary_iff (h : Represents program config aliases graph problem)
    {entry : Node × Fact} : entry ∈ problem.boundary ↔ ∃ method ∈ graph.entries,
      method ∈ graph.methods ∧ entry.1 = .entry method ∧
        Constants.boundaryFact program method = .ok entry.2 := by
  obtain ⟨node, fact⟩ := entry
  simp only [mem_mapM_iff h.boundary, List.mem_filter, List.contains_iff_mem, bind_eq_ok_iff,
    pure_eq_ok, Except.ok.injEq, Prod.mk.injEq, and_assoc]
  refine exists_congr fun method => and_congr_right fun _ => and_congr_right fun _ => ?_
  constructor
  · rintro ⟨found, hfound, rfl, rfl⟩
    exact ⟨rfl, hfound⟩
  · rintro ⟨rfl, hfact⟩
    exact ⟨fact, hfact, rfl, rfl⟩

theorem mem_inEdges_iff (h : Represents program config aliases graph problem)
    (hbuilt : Built program calls graph) {node source : Node} {f : Fact → Fact} :
    (source, f) ∈ problem.inEdges node ↔ node ∈ graph.nodes ∧ ∃ edge, IsEdge program calls edge ∧
      edge.target = node ∧ edge.source = source ∧ along program edge = .ok f := by
  by_cases hnode : node ∈ graph.nodes
  · simp only [mem_mapM_iff (h.inEdges node hnode), hbuilt.mem_inEdges_iff, bind_eq_ok_iff,
      pure_eq_ok, Except.ok.injEq, Prod.mk.injEq, hnode, true_and, and_assoc]
    refine exists_congr fun edge => and_congr_right fun _ => and_congr_right fun _ => ?_
    constructor
    · rintro ⟨found, hfound, rfl, rfl⟩
      exact ⟨rfl, hfound⟩
    · rintro ⟨rfl, hf⟩
      exact ⟨f, hf, rfl, rfl⟩
  · simp [h.noEdges node hnode, hnode]

/-- What a node does to a fact, also for nodes outside the graph. -/
theorem nodeEffect (h : Represents program config aliases graph problem)
    (hbuilt : Built program calls graph) (hpaired : Paired program aliases) (node : Node) :
    problem.transfer node = (fun _ => id) ∨
      NodeEffect program config aliases node (problem.transfer node) := by
  by_cases hnode : node ∈ graph.nodes
  · obtain ⟨f, hf, heffect⟩ := exists_transfer hpaired (exists_getStmt hbuilt hnode)
    rw [h.transfer node hnode] at hf
    cases hf
    exact .inr heffect
  · exact .inl (h.noTransfer node hnode)

theorem nodup_boundary (h : Represents program config aliases graph problem)
    (hbuilt : Built program calls graph) : (problem.boundary.map Prod.fst).Nodup := by
  have hentries : (graph.entries.filter graph.methods.contains).Nodup := by
    rw [hbuilt.entries]
    exact calls.entries.nodup_toList.filter _
  have hnames : problem.boundary.map Prod.fst =
      (graph.entries.filter graph.methods.contains).map Node.entry := by
    have hboundary := h.boundary
    generalize graph.entries.filter graph.methods.contains = methods,
      problem.boundary = boundary at hboundary
    induction methods generalizing boundary with
    | nil =>
      cases hboundary
      rfl
    | cons method methods ih =>
      rw [List.mapM_cons] at hboundary
      obtain ⟨first, hfirst, hnext⟩ := bind_eq_ok_iff.mp hboundary
      obtain ⟨rest, hrest, hpure⟩ := bind_eq_ok_iff.mp hnext
      obtain ⟨fact, -, hfirst⟩ := bind_eq_ok_iff.mp hfirst
      cases hfirst
      cases hpure
      rw [List.map_cons, List.map_cons, ih _ hrest]
  rw [hnames]
  refine hentries.map fun a b hab => ?_
  simpa [Node.entry] using hab

/-- The equations are lawful. -/
theorem lawful (h : Represents program config aliases graph problem)
    (hbuilt : Built program calls graph) (hpaired : Paired program aliases) :
    problem.Lawful program.listing.vars.size (stores program) where
  nodup := h.nodes ▸ hbuilt.nodup_nodes
  initial := h.initial
  meet := h.meet
  boundary_nodup := h.nodup_boundary hbuilt
  boundary entry hentry := by
    obtain ⟨method, -, hmethod, hnode, hfact⟩ := h.mem_boundary_iff.mp hentry
    rw [hbuilt.methods_eq] at hmethod
    obtain ⟨found, hfound⟩ := hbuilt.exists_getMethod hmethod
    obtain ⟨fact, hfact', htidy, -⟩ := Constants.exists_boundaryFact hfound
    rw [hfact] at hfact'
    cases hfact'
    rw [h.nodes, hnode]
    exact ⟨hbuilt.mem_nodes_iff.mpr ⟨hmethod, found, hfound, trivial⟩, htidy⟩
  source node edge hedge := by
    obtain ⟨-, found, hfound, -, hsource, -⟩ := (h.mem_inEdges_iff hbuilt).mp hedge
    rw [h.nodes, ← hsource]
    exact hbuilt.source_mem_nodes hfound
  along node edge hedge fact hfact := by
    obtain ⟨-, found, hfound, -, -, halong⟩ := (h.mem_inEdges_iff hbuilt).mp hedge
    obtain ⟨f, hf, htidy⟩ := exists_along hbuilt hfound
    rw [halong] at hf
    cases hf
    exact htidy fact hfact
  succs node hnode edge hedge := by
    obtain ⟨-, found, hfound, htarget, hsource, -⟩ := (h.mem_inEdges_iff hbuilt).mp hedge
    rw [h.succs, ← hsource]
    exact Built.mem_succs_of_mem_inEdges (hbuilt.mem_inEdges_iff.mpr ⟨hfound, htarget⟩)
  transfer node facts fact hfact := by
    rcases h.nodeEffect hbuilt hpaired node with hid | heffect
    · rw [hid]
      exact hfact
    · exact heffect.tidy facts hfact
  before node facts other fact := by
    rcases h.nodeEffect hbuilt hpaired node with hid | heffect
    · rw [hid]
    · exact heffect.congr fun _ _ => rfl
  silent source hsource node facts fact := by
    rcases h.nodeEffect hbuilt hpaired node with hid | heffect
    · rw [hid]
    · refine heffect.congr fun other hother => ?_
      have hne : other ≠ source := by
        rintro rfl
        rw [hsource] at hother
        cases hother
      rw [Facts.output_setAfter, if_neg hne]
  passes source hsource facts fact := by
    rcases h.nodeEffect hbuilt hpaired source with hid | heffect
    · rw [hid]
      rfl
    · exact heffect.passes hsource
  dependents source hsource hstores node _ facts fact hgrows hnot := by
    obtain ⟨site, stmt, rfl, hstmt, hisStore⟩ := exists_of_stores hstores
    obtain ⟨g, hg, hconcerned⟩ := @exists_dependents program config aliases site stmt hpaired hstmt
    rw [h.dependents _ (h.nodes ▸ hsource)] at hg
    cases hg
    rcases h.nodeEffect hbuilt hpaired node with hid | heffect
    · rw [hid]
    · refine heffect.setAfter_eq hpaired hstmt hisStore hgrows ?_
      rintro haware load rfl hload
      exact hnot (hconcerned haware facts fact load hload)

theorem limit_lt (h : Represents program config aliases graph problem)
    (hbuilt : Built program calls graph) :
    problem.limit program.listing.vars.size + 1 < 2 ^ (8 * program.listing.size + 16) := by
  have hnodes : problem.nodes.length ≤ 2 * program.listing.size :=
    h.nodes ▸ hbuilt.length_nodes_le
  have hvars := program.measured.vars
  generalize program.listing.size = size, program.listing.vars.size = vars at *
  have hwide : 2 * size + 1 ≤ 2 ^ (size + 1) := by
    have hlt : size < 2 ^ size := Nat.lt_two_pow_self
    rw [pow_succ]
    omega
  generalize hwidth : 2 * size + 1 = width at hwide
  have hlimit : problem.limit vars ≤ width * (width * width) * width + width := by
    unfold Interprocedural.Problem.limit
    gcongr <;> omega
  have hpos : 1 ≤ width := by omega
  calc problem.limit vars + 1
      ≤ width * (width * width) * width + width + 1 := Nat.succ_le_succ hlimit
    _ < 4 * width ^ 4 := by
      have hfourth : width ≤ width ^ 4 := Nat.le_self_pow (by omega) width
      have hcube : width * (width * width) * width = width ^ 4 := by ring
      omega
    _ ≤ 4 * (2 ^ (size + 1)) ^ 4 := by gcongr
    _ = 2 ^ (4 * size + 6) := by ring
    _ ≤ 2 ^ (8 * size + 16) := Nat.pow_le_pow_right (by omega) (by omega)

end Represents

end Problem

/-- Facts that solve the equations of a program over a call graph. -/
structure Solved (program : Program) (config : Config.Dataflow) (calls : CallGraph Site MethodId)
    (graph : Supergraph) (aliases : HeapAliases) (facts : Facts Fact) : Prop where
  before : ∀ node ∈ graph.nodes, facts.before.get? node = some (facts.input node)
  boundary : ∀ method ∈ calls.entries.toList, method ∈ calls.reachable.toList →
    ∀ fact, Constants.boundaryFact program method = .ok fact →
      fact ≤ facts.input (.entry method)
  flows : ∀ edge f, IsEdge program calls edge → along program edge = .ok f →
    f (facts.output edge.source) ≤ facts.input edge.target
  output : ∀ node ∈ graph.nodes, ∀ f, transfer program config aliases node = .ok f →
    facts.output node = f facts (facts.input node)

/-- The equations are always solved. -/
theorem exists_solve {calls : CallGraph Site MethodId} {graph : Supergraph}
    (hbuilt : Built program calls graph) (hpaired : Paired program aliases) :
    ∃ progress, solve program config aliases graph = .ok progress ∧
      Solved program config calls graph aliases progress.facts := by
  obtain ⟨problem, hproblem⟩ := @exists_problem program config aliases _ _ hbuilt hpaired
  have hrepresents := represents_of_problem hproblem
  obtain ⟨_, -, ⟨-, hsolution⟩, -⟩ :=
    (hrepresents.lawful hbuilt hpaired).exists_ends (hrepresents.limit_lt hbuilt)
  refine ⟨_, by rw [solve, hproblem]; rfl, ?_, ?_, ?_, ?_⟩
  · exact fun node hnode => hsolution.before node (hrepresents.nodes ▸ hnode)
  · intro method hentry hmethod fact hfact
    refine hsolution.boundary (.entry method, fact) (hrepresents.mem_boundary_iff.mpr ?_)
    exact ⟨method, hbuilt.entries ▸ hentry, hbuilt.methods_eq ▸ hmethod, rfl, hfact⟩
  · intro edge f hedge halong
    have htarget := hbuilt.target_mem_nodes hedge
    refine (hsolution.settled _ (hrepresents.nodes ▸ htarget)).flows (edge.source, f) ?_
    exact (hrepresents.mem_inEdges_iff hbuilt).mpr ⟨htarget, edge, hedge, rfl, rfl, halong⟩
  · intro node hnode f hf
    rw [hrepresents.transfer node hnode] at hf
    cases hf
    exact (hsolution.settled node (hrepresents.nodes ▸ hnode)).output

section Analyze

variable {policy : PointsTo.Policy} {result : PointsTo.Result}

/-- The methods of the call graph of a points-to result are methods of the program. -/
theorem method_lt_of_reachable (h : PointsTo.State.Reaches program policy result.state)
    (hentries : result.entries = program.entries) {method : MethodId}
    (hmethod : method ∈ result.callGraph.reachable.toList) :
    method.index < program.listing.methods.size := by
  rcases PointsTo.Result.mem_reachable_callGraph_iff.mp hmethod with hentry | ⟨context, hholds⟩
  · rw [hentries] at hentry
    exact program.inRange.entry method hentry
  · obtain ⟨_, hreads, hderives⟩ := h.justified hholds
    cases hreads with
    | reachable _ => exact hderives.inRange

/-- The equations of a points-to result can always be set up. -/
theorem exists_prepare (config : Config.Dataflow)
    (h : PointsTo.State.Reaches program policy result.state)
    (hentries : result.entries = program.entries) :
    ∃ graph aliases, prepare program config result = .ok (graph, aliases) ∧
      Built program result.callGraph graph ∧
      (config.aliasAware = true → HeapAliases.build graph result = .ok aliases) ∧
      Paired program aliases := by
  obtain ⟨graph, hgraph⟩ := Supergraph.exists_build fun method hmethod =>
    method_lt_of_reachable h hentries hmethod
  have hbuilt := Supergraph.built_of_build hgraph
  cases haware : config.aliasAware with
  | true =>
    obtain ⟨aliases, haliases⟩ := HeapAliases.exists_build h graph
    refine ⟨graph, aliases, ?_, hbuilt, fun _ => haliases, paired_of_build hbuilt haliases⟩
    simp [prepare, hgraph, haware, haliases]
  | false =>
    refine ⟨graph, {}, ?_, hbuilt, by simp, paired_empty program⟩
    simp [prepare, hgraph, haware]

/-- The facts of a points-to result can always be computed, and solve the equations. -/
theorem exists_analyze (config : Config.Dataflow)
    (h : PointsTo.State.Reaches program policy result.state)
    (hentries : result.entries = program.entries) :
    ∃ graph aliases facts, Built program result.callGraph graph ∧
      (config.aliasAware = true → HeapAliases.build graph result = .ok aliases) ∧
      Paired program aliases ∧ analyze program config result = .ok facts ∧
      Solved program config result.callGraph graph aliases facts := by
  obtain ⟨graph, aliases, hprepare, hbuilt, haliases, hpaired⟩ :=
    exists_prepare config h hentries
  obtain ⟨progress, hsolve, hsolved⟩ := @exists_solve program config aliases _ _ hbuilt hpaired
  refine ⟨graph, aliases, progress.facts, hbuilt, haliases, hpaired, ?_, hsolved⟩
  rw [analyze, hprepare, ok_bind]
  simp only [hsolve, ok_bind]
  rfl

end Analyze

end ObjectFlow.Dataflow.InterConstants
