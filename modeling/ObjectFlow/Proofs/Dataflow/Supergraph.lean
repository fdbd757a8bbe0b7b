import ObjectFlow.Dataflow.Supergraph
import ObjectFlow.Proofs.ControlFlow
import ObjectFlow.Proofs.Program.Size

/-!
# Nodes and edges of the supergraph

The supergraph of a call graph has the nodes of all reachable methods, each once.  Its
edges are those of the control-flow graphs, and for each call of a reachable method those
to the entry and from the exit of a callee.
-/

namespace ObjectFlow.Dataflow.Supergraph

/-- Rows without duplicates have none together when each item is told from the others by a name,
and everything in its row by that name too. -/
theorem nodup_flatMap_of_owner {α β γ : Type} {items : List α} {row : α → List β} (name : α → γ)
    (owner : β → γ) (hitems : (items.map name).Nodup) (hrow : ∀ a ∈ items, (row a).Nodup)
    (howner : ∀ a ∈ items, ∀ b ∈ row a, owner b = name a) : (items.flatMap row).Nodup := by
  rw [List.nodup_flatMap]
  refine ⟨hrow, (List.pairwise_map.mp hitems).imp_of_mem fun {a b} ha hb hne => ?_⟩
  intro c hca hcb
  exact hne ((howner a ha c hca).symm.trans (howner b hb c hcb))

variable {program : Program} {calls : CallGraph Site MethodId} {graph : Supergraph}

/-- The parts of a supergraph that was built. -/
structure Built (program : Program) (calls : CallGraph Site MethodId) (graph : Supergraph) :
    Prop where
  entries : graph.entries = calls.entries.toList
  cfgs : calls.reachable.toList.mapM (Cfg.build program) = .ok graph.cfgs
  edges : graph.edges = graph.cfgs.flatMap innerEdges ++
    graph.cfgs.flatMap (outerEdges calls calls.reachable.toList)

theorem built_of_build (h : build program calls = .ok graph) : Built program calls graph := by
  obtain ⟨cfgs, hcfgs, hpure⟩ := bind_eq_ok_iff.mp h
  cases hpure
  exact ⟨rfl, hcfgs, rfl⟩

/-- A call graph over the methods of the program has a supergraph. -/
theorem exists_build
    (h : ∀ method ∈ calls.reachable.toList, method.index < program.listing.methods.size) :
    ∃ graph, build program calls = .ok graph := by
  have hcfg : ∀ method ∈ calls.reachable.toList, ∃ cfg, Cfg.build program method = .ok cfg := by
    intro method hmethod
    obtain ⟨found, hfound⟩ := Program.exists_getMethod (h method hmethod)
    exact ⟨_, Cfg.build_eq_ok_iff.mpr ⟨found, hfound, rfl⟩⟩
  obtain ⟨cfgs, hcfgs⟩ := exists_mapM_ok hcfg
  exact ⟨_, by rw [build, hcfgs]; rfl⟩

namespace Built

theorem build_eq (h : Built program calls graph) : build program calls = .ok graph := by
  obtain ⟨entries, cfgs, edges⟩ := graph
  obtain ⟨hentries, hcfgs, hedges⟩ := h
  dsimp only at hentries hcfgs hedges
  rw [build, hcfgs, ok_bind, pure_eq_ok, hentries, hedges]

theorem mem_cfgs_iff (h : Built program calls graph) {cfg : Cfg} :
    cfg ∈ graph.cfgs ↔ ∃ method ∈ calls.reachable.toList, ∃ found,
      program.getMethod method = .ok found ∧ cfg = Cfg.ofStmts method found.stmts := by
  simp only [mem_mapM_iff h.cfgs, Cfg.build_eq_ok_iff]

theorem methods_eq (h : Built program calls graph) : graph.methods = calls.reachable.toList := by
  have hcfgs := h.cfgs
  unfold methods
  generalize calls.reachable.toList = methods, graph.cfgs = cfgs at hcfgs ⊢
  induction methods generalizing cfgs with
  | nil =>
    cases hcfgs
    rfl
  | cons method methods ih =>
    rw [List.mapM_cons] at hcfgs
    obtain ⟨cfg, hcfg, hnext⟩ := bind_eq_ok_iff.mp hcfgs
    obtain ⟨rest, hrest, hpure⟩ := bind_eq_ok_iff.mp hnext
    obtain ⟨found, -, rfl⟩ := Cfg.build_eq_ok_iff.mp hcfg
    cases hpure
    rw [List.map_cons, ih rest hrest]
    rfl

/-- The nodes are the points of the reachable methods. -/
theorem mem_nodes_iff (h : Built program calls graph) {node : Node} :
    node ∈ graph.nodes ↔ node.method ∈ calls.reachable.toList ∧ ∃ found,
      program.getMethod node.method = .ok found ∧ Node.Inside found.stmts.size node.point := by
  simp only [nodes, List.mem_flatMap, h.mem_cfgs_iff, Cfg.mem_nodes_iff]
  constructor
  · rintro ⟨cfg, ⟨method, hmethod, found, hfound, rfl⟩, hnode, hinside⟩
    cases hnode
    exact ⟨hmethod, found, hfound, hinside⟩
  · rintro ⟨hmethod, found, hfound, hinside⟩
    exact ⟨_, ⟨node.method, hmethod, found, hfound, rfl⟩, rfl, hinside⟩

theorem nodup_methods (h : Built program calls graph) : graph.methods.Nodup := by
  rw [h.methods_eq]
  exact calls.reachable.nodup_toList

theorem nodup_nodes (h : Built program calls graph) : graph.nodes.Nodup :=
  nodup_flatMap_of_owner Cfg.method Node.method h.nodup_methods (fun cfg _ => cfg.nodup_nodes)
    fun _ _ _ hnode => (Cfg.mem_nodes_iff.mp hnode).1

theorem exists_getMethod (h : Built program calls graph) {method : MethodId}
    (hmethod : method ∈ calls.reachable.toList) :
    ∃ found, program.getMethod method = .ok found := by
  obtain ⟨cfg, hcfg, hname⟩ := List.mem_map.mp (h.methods_eq ▸ hmethod)
  obtain ⟨method', -, found, hfound, rfl⟩ := h.mem_cfgs_iff.mp hcfg
  cases hname
  exact ⟨found, hfound⟩

/-- A statement of a reachable method is that of its node. -/
theorem ofSite_mem_nodes_iff (h : Built program calls graph) {site : Site} :
    .ofSite site ∈ graph.nodes ↔
      site.method ∈ calls.reachable.toList ∧ ∃ stmt, program.getStmt site = .ok stmt := by
  rw [h.mem_nodes_iff]
  refine and_congr_right fun _ => ?_
  simp only [Program.getStmt_eq_ok_iff, Node.ofSite, Node.stmt, Node.Inside]
  constructor
  · rintro ⟨found, hfound, hlt⟩
    exact ⟨found.stmts[site.index], found, hfound, Array.getElem?_eq_getElem hlt⟩
  · rintro ⟨stmt, found, hfound, hstmt⟩
    exact ⟨found, hfound, (Array.getElem?_eq_some_iff.mp hstmt).1⟩

end Built

/-- Whether a step inside a method passes a call. -/
def innerKind (cfg : Cfg) (node : Node) : SuperEdgeKind :=
  if (cfg.stmt? node).any Stmt.isCall then .callToReturn else .normal

/-- The edges of the supergraph of a call graph. -/
inductive IsEdge (program : Program) (calls : CallGraph Site MethodId) : SuperEdge → Prop where
  | inner {method : MethodId} {found : Method} {source target : Node}
    (hmethod : method ∈ calls.reachable.toList) (hfound : program.getMethod method = .ok found)
    (hsuccs : target ∈ (Cfg.ofStmts method found.stmts).succs source) :
    IsEdge program calls ⟨source, target, innerKind (.ofStmts method found.stmts) source⟩
  | call {site : Site} {call : Call} {callee : MethodId}
    (hsite : site.method ∈ calls.reachable.toList)
    (hstmt : program.getStmt site = .ok (.invoke call)) (hcallee : callee ∈ calls.calleesOf site)
    (hreachable : callee ∈ calls.reachable.toList) :
    IsEdge program calls ⟨.ofSite site, .entry callee, .call site callee⟩
  | ret {site : Site} {call : Call} {callee : MethodId} {found : Method} {target : Node}
    (hsite : site.method ∈ calls.reachable.toList)
    (hfound : program.getMethod site.method = .ok found)
    (hstmt : found.stmts[site.index]? = some (.invoke call))
    (hcallee : callee ∈ calls.calleesOf site) (hreachable : callee ∈ calls.reachable.toList)
    (hsuccs : target ∈ (Cfg.ofStmts site.method found.stmts).succs (.ofSite site)) :
    IsEdge program calls ⟨.exit callee, target, .ret site callee⟩

theorem mem_innerEdges_iff {cfg : Cfg} {edge : SuperEdge} :
    edge ∈ innerEdges cfg ↔ edge.source ∈ cfg.nodes ∧ edge.target ∈ cfg.succs edge.source ∧
      edge.kind = innerKind cfg edge.source := by
  obtain ⟨source, target, kind⟩ := edge
  simp only [innerEdges, List.mem_flatMap, List.mem_map, SuperEdge.mk.injEq]
  constructor
  · rintro ⟨node, hnode, other, hsuccs, rfl, rfl, rfl⟩
    exact ⟨hnode, hsuccs, rfl⟩
  · rintro ⟨hnode, hsuccs, rfl⟩
    exact ⟨source, hnode, target, hsuccs, rfl, rfl, rfl⟩

theorem isCall_iff {stmt : Stmt} : stmt.isCall = true ↔ ∃ call, stmt = .invoke call := by
  cases stmt <;> simp [Stmt.isCall, Stmt.call?]

theorem mem_callSites_iff {cfg : Cfg} {site : Site} :
    site ∈ callSites cfg ↔ site.method = cfg.method ∧
      ∃ call, cfg.stmts[site.index]? = some (.invoke call) := by
  obtain ⟨method, index⟩ := site
  simp only [callSites, List.mem_filterMap, Prod.exists, List.mem_zipIdx_iff_getElem?,
    Array.getElem?_toList]
  constructor
  · rintro ⟨stmt, index', hstmt, hsome⟩
    split at hsome
    · next hcall =>
      cases hsome
      obtain ⟨call, rfl⟩ := isCall_iff.mp hcall
      exact ⟨rfl, call, hstmt⟩
    · cases hsome
  · rintro ⟨rfl, call, hstmt⟩
    exact ⟨_, index, hstmt, by simp [Stmt.isCall, Stmt.call?]⟩

theorem mem_outerEdges_iff {methods : List MethodId} {cfg : Cfg} {edge : SuperEdge} :
    edge ∈ outerEdges calls methods cfg ↔ ∃ site ∈ callSites cfg, ∃ callee ∈ calls.calleesOf site,
      callee ∈ methods ∧ (edge = ⟨.ofSite site, .entry callee, .call site callee⟩ ∨
        ∃ target ∈ cfg.succs (.ofSite site), edge = ⟨.exit callee, target, .ret site callee⟩) := by
  simp only [outerEdges, edgesOfCall, List.mem_flatMap, List.mem_filter, List.contains_iff_mem,
    List.mem_cons, List.mem_map, and_assoc, @eq_comm _ _ edge]

namespace Built

theorem mem_edges_iff (h : Built program calls graph) {edge : SuperEdge} :
    edge ∈ graph.edges ↔ IsEdge program calls edge := by
  rw [h.edges, List.mem_append, List.mem_flatMap, List.mem_flatMap]
  constructor
  · rintro (⟨cfg, hcfg, hedge⟩ | ⟨cfg, hcfg, hedge⟩)
    · obtain ⟨method, hmethod, found, hfound, rfl⟩ := h.mem_cfgs_iff.mp hcfg
      obtain ⟨source, target, kind⟩ := edge
      obtain ⟨-, hsuccs, hkind⟩ := mem_innerEdges_iff.mp hedge
      simp only at hsuccs hkind
      subst hkind
      exact .inner hmethod hfound hsuccs
    · obtain ⟨method, hmethod, found, hfound, rfl⟩ := h.mem_cfgs_iff.mp hcfg
      obtain ⟨site, hsite, callee, hcallee, hreachable, hcase⟩ := mem_outerEdges_iff.mp hedge
      obtain ⟨rfl, call, hstmt⟩ := mem_callSites_iff.mp hsite
      rcases hcase with rfl | ⟨target, hsuccs, rfl⟩
      · exact .call hmethod (Program.getStmt_eq_ok_iff.mpr ⟨found, hfound, hstmt⟩) hcallee
          hreachable
      · exact .ret hmethod hfound hstmt hcallee hreachable hsuccs
  · rintro (⟨hmethod, hfound, hsuccs⟩ | ⟨hsite, hstmt, hcallee, hreachable⟩ |
      ⟨hsite, hfound, hstmt, hcallee, hreachable, hsuccs⟩)
    · refine .inl ⟨_, h.mem_cfgs_iff.mpr ⟨_, hmethod, _, hfound, rfl⟩, mem_innerEdges_iff.mpr ?_⟩
      exact ⟨(Cfg.mem_nodes_of_mem_succs hsuccs).1, hsuccs, rfl⟩
    · obtain ⟨found, hfound, hstmt⟩ := Program.getStmt_eq_ok_iff.mp hstmt
      refine .inr ⟨_, h.mem_cfgs_iff.mpr ⟨_, hsite, _, hfound, rfl⟩, mem_outerEdges_iff.mpr ?_⟩
      exact ⟨_, mem_callSites_iff.mpr ⟨rfl, _, hstmt⟩, _, hcallee, hreachable, .inl rfl⟩
    · refine .inr ⟨_, h.mem_cfgs_iff.mpr ⟨_, hsite, _, hfound, rfl⟩, mem_outerEdges_iff.mpr ?_⟩
      exact ⟨_, mem_callSites_iff.mpr ⟨rfl, _, hstmt⟩, _, hcallee, hreachable,
        .inr ⟨_, hsuccs, rfl⟩⟩

theorem mem_inEdges_iff (h : Built program calls graph) {edge : SuperEdge} {node : Node} :
    edge ∈ graph.inEdges node ↔ IsEdge program calls edge ∧ edge.target = node := by
  simp [inEdges, h.mem_edges_iff]

/-- The source of an edge is a node. -/
theorem source_mem_nodes (h : Built program calls graph) {edge : SuperEdge}
    (hedge : IsEdge program calls edge) : edge.source ∈ graph.nodes := by
  cases hedge with
  | inner hmethod hfound hsuccs =>
    obtain ⟨hsource, -⟩ := Cfg.mem_nodes_of_mem_succs hsuccs
    exact List.mem_flatMap.mpr ⟨_, h.mem_cfgs_iff.mpr ⟨_, hmethod, _, hfound, rfl⟩, hsource⟩
  | call hsite hstmt => exact h.ofSite_mem_nodes_iff.mpr ⟨hsite, _, hstmt⟩
  | ret _ _ _ _ hreachable =>
    obtain ⟨found, hfound⟩ := h.exists_getMethod hreachable
    exact h.mem_nodes_iff.mpr ⟨hreachable, found, hfound, trivial⟩

/-- The target of an edge is a node. -/
theorem target_mem_nodes (h : Built program calls graph) {edge : SuperEdge}
    (hedge : IsEdge program calls edge) : edge.target ∈ graph.nodes := by
  cases hedge with
  | inner hmethod hfound hsuccs =>
    obtain ⟨-, htarget⟩ := Cfg.mem_nodes_of_mem_succs hsuccs
    exact List.mem_flatMap.mpr ⟨_, h.mem_cfgs_iff.mpr ⟨_, hmethod, _, hfound, rfl⟩, htarget⟩
  | call _ _ _ hreachable =>
    obtain ⟨found, hfound⟩ := h.exists_getMethod hreachable
    exact h.mem_nodes_iff.mpr ⟨hreachable, found, hfound, trivial⟩
  | ret hsite hfound _ _ _ hsuccs =>
    obtain ⟨-, htarget⟩ := Cfg.mem_nodes_of_mem_succs hsuccs
    exact List.mem_flatMap.mpr ⟨_, h.mem_cfgs_iff.mpr ⟨_, hsite, _, hfound, rfl⟩, htarget⟩

theorem mem_succs_of_mem_inEdges {edge : SuperEdge} {node : Node}
    (h : edge ∈ graph.inEdges node) : node ∈ graph.succs edge.source := by
  obtain ⟨hedge, htarget⟩ := List.mem_filter.mp h
  refine List.mem_eraseDups.mpr (List.mem_map.mpr ⟨edge, List.mem_filter.mpr ⟨hedge, ?_⟩, ?_⟩)
  · simp
  · simpa using htarget

/-- There are at most twice as many nodes as the program is large. -/
theorem length_nodes_le (h : Built program calls graph) :
    graph.nodes.length ≤ 2 * program.listing.size := by
  let every := program.listing.methods.toList.flatMap fun method =>
    (Cfg.ofStmts method.id method.stmts).nodes
  have hsubset : graph.nodes ⊆ every := by
    intro node hnode
    obtain ⟨-, found, hfound, hinside⟩ := h.mem_nodes_iff.mp hnode
    refine List.mem_flatMap.mpr ⟨found, ?_, Cfg.mem_nodes_iff.mpr ⟨?_, hinside⟩⟩
    · exact Array.mem_toList_iff.mpr
        (Array.mem_of_getElem? (Program.getMethod_eq_ok_iff.mp hfound))
    · exact (Program.id_of_getMethod hfound).symm
  have hevery : every.length = program.listing.sites.length + 2 * program.listing.methods.size := by
    have hlength : ∀ method : Method,
        (Cfg.ofStmts method.id method.stmts).nodes.length = method.sites.length + 2 := by
      intro method
      rw [Cfg.length_nodes]
      simp [Cfg.ofStmts, Method.sites]
    simp only [every, Listing.sites, List.length_flatMap, hlength, List.sum_map_add]
    simp [Nat.mul_comm]
  have hlisting : program.listing.methods.size + program.listing.sites.length ≤
      program.listing.size := by
    simp only [Listing.size]
    omega
  have hle := (List.subperm_of_subset h.nodup_nodes hsubset).length_le
  omega

end Built

end ObjectFlow.Dataflow.Supergraph
