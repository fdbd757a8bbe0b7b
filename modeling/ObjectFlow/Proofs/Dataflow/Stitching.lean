import ObjectFlow.Proofs.CallGraph.LeastGraph
import ObjectFlow.Proofs.CallGraph.Tables
import ObjectFlow.Proofs.Dataflow.Supergraph

/-!
# Control-flow graphs stitched together

The supergraph has the nodes of the control-flow graphs and one edge for every reason to have
one: a step within a method, the way from a call into a callee, and the way back.  A call has one
node that follows it, so that every way into a callee has one way back.
-/

namespace ObjectFlow

namespace Dataflow

/-- The call that an edge enters or comes back from, with the callee. -/
def SuperEdgeKind.call? : SuperEdgeKind → Option (Site × MethodId)
  | .normal => none
  | .callToReturn => none
  | .call site callee => some (site, callee)
  | .ret site callee => some (site, callee)

namespace Supergraph

variable {program : Program} {calls : CallGraph Site MethodId} {graph : Supergraph}
  {methods : List MethodId} {cfg : Cfg} {site : Site} {callee : MethodId} {edge : SuperEdge}

section Once

theorem call?_innerKind (cfg : Cfg) (node : Node) : (innerKind cfg node).call? = none := by
  unfold innerKind
  split <;> rfl

theorem innerKind_ne {kind : SuperEdgeKind} (hcall : kind.call? = some (site, callee)) (cfg : Cfg)
    (node : Node) : innerKind cfg node ≠ kind := by
  rintro rfl
  rw [call?_innerKind] at hcall
  cases hcall

theorem nodup_innerEdges (cfg : Cfg) : (innerEdges cfg).Nodup := by
  apply nodup_flatMap_of_owner id SuperEdge.source
  · rw [List.map_id]
    exact cfg.nodup_nodes
  · intro node _
    refine (cfg.nodup_succs node).map fun target target' h => ?_
    simpa using h
  · intro node _ edge hedge
    obtain ⟨target, -, rfl⟩ := List.mem_map.mp hedge
    rfl

theorem nodup_callSites (cfg : Cfg) : (callSites cfg).Nodup := by
  have hpositions : cfg.stmts.toList.zipIdx.Pairwise fun a b => a.2 ≠ b.2 := by
    rw [← List.pairwise_map (f := Prod.snd), List.zipIdx_map_snd]
    exact List.nodup_range'
  rw [List.Nodup, callSites, List.pairwise_filterMap]
  apply hpositions.imp
  intro a b hne site hsite site' hsite' heq
  simp only [Option.ite_none_right_eq_some, Option.some.injEq] at hsite hsite'
  obtain ⟨⟨-, rfl⟩, ⟨-, rfl⟩⟩ := hsite, hsite'
  exact hne (congrArg Site.index heq)

theorem call?_of_mem_edgesOfCall (h : edge ∈ edgesOfCall cfg site callee) :
    edge.kind.call? = some (site, callee) := by
  rcases List.mem_cons.mp h with rfl | hret
  · rfl
  · obtain ⟨target, -, rfl⟩ := List.mem_map.mp hret
    rfl

theorem nodup_edgesOfCall (cfg : Cfg) (site : Site) (callee : MethodId) :
    (edgesOfCall cfg site callee).Nodup := by
  apply List.nodup_cons.mpr
  constructor
  · simp
  · refine (cfg.nodup_succs _).map fun target target' h => ?_
    simpa using h

theorem nodup_outerEdges (calls : CallGraph Site MethodId) (methods : List MethodId) (cfg : Cfg) :
    (outerEdges calls methods cfg).Nodup := by
  apply nodup_flatMap_of_owner some fun edge => edge.kind.call?.map Prod.fst
  · exact (nodup_callSites cfg).map (Option.some_injective _)
  · intro site _
    apply nodup_flatMap_of_owner (fun callee => some (site, callee)) fun edge => edge.kind.call?
    · refine ((calls.nodup_calleesOf site).filter _).map fun callee callee' h => ?_
      simpa using h
    · exact fun callee _ => nodup_edgesOfCall cfg site callee
    · exact fun callee _ edge hedge => call?_of_mem_edgesOfCall hedge
  · intro site _ edge hedge
    obtain ⟨callee, -, hedge⟩ := List.mem_flatMap.mp hedge
    rw [call?_of_mem_edgesOfCall hedge, Option.map_some]

theorem call?_of_mem_outerEdges (h : edge ∈ outerEdges calls methods cfg) :
    ∃ site callee, edge.kind.call? = some (site, callee) ∧ site.method = cfg.method := by
  obtain ⟨site, hsite, hrow⟩ := List.mem_flatMap.mp h
  obtain ⟨callee, -, hedge⟩ := List.mem_flatMap.mp hrow
  exact ⟨site, callee, call?_of_mem_edgesOfCall hedge, (mem_callSites_iff.mp hsite).1⟩

theorem Built.nodup_edges (h : Built program calls graph) : graph.edges.Nodup := by
  have hmethods : (graph.cfgs.map Cfg.method).Nodup := h.nodup_methods
  rw [h.edges]
  apply List.Nodup.append
  · apply nodup_flatMap_of_owner Cfg.method (fun edge => edge.source.method) hmethods
    · exact fun cfg _ => nodup_innerEdges cfg
    · intro cfg _ edge hedge
      exact (Cfg.mem_nodes_iff.mp (mem_innerEdges_iff.mp hedge).1).1
  · apply nodup_flatMap_of_owner (fun cfg => some cfg.method)
      (fun edge => edge.kind.call?.map fun call => call.1.method)
    · have hsome := hmethods.map (Option.some_injective MethodId)
      rwa [List.map_map] at hsome
    · exact fun cfg _ => nodup_outerEdges calls _ cfg
    · intro cfg _ edge hedge
      obtain ⟨site, callee, hcall, hsite⟩ := call?_of_mem_outerEdges hedge
      rw [hcall, Option.map_some, hsite]
  · -- Only the edges between methods belong to a call.
    intro edge hinner houter
    obtain ⟨cfg, -, hinner⟩ := List.mem_flatMap.mp hinner
    obtain ⟨cfg', -, houter⟩ := List.mem_flatMap.mp houter
    obtain ⟨site, callee, hcall, -⟩ := call?_of_mem_outerEdges houter
    exact innerKind_ne hcall cfg edge.source (mem_innerEdges_iff.mp hinner).2.2.symm

end Once

section Matched

/-- A call of a reachable method has a callee that is reachable itself. -/
structure Enters (program : Program) (calls : CallGraph Site MethodId) (site : Site)
    (callee : MethodId) : Prop where
  reaches_site : site.method ∈ calls.reachable.toList
  isCall : ∃ call, program.getStmt site = .ok (.invoke call)
  mem_callees : callee ∈ calls.calleesOf site
  reaches_callee : callee ∈ calls.reachable.toList

/-- Control goes on after a call at one node. -/
theorem exists_next (h : ∃ call, program.getStmt site = .ok (.invoke call)) :
    ∃ found call next, program.getMethod site.method = .ok found ∧
      found.stmts[site.index]? = some (.invoke call) ∧
      ∀ target, target ∈ (Cfg.ofStmts site.method found.stmts).succs (.ofSite site) ↔
        target = next := by
  obtain ⟨call, hstmt⟩ := h
  obtain ⟨found, hfound, hentry⟩ := Program.getStmt_eq_ok_iff.mp hstmt
  refine ⟨found, call, Cfg.nodeAt site.method found.stmts.size (site.index + 1), hfound, hentry,
    fun target => ?_⟩
  rw [Node.ofSite, Cfg.mem_succs_stmt_iff hentry]
  simp [Cfg.exits]

/-- Only a call that enters a callee has edges to it and back. -/
theorem IsEdge.enters (h : IsEdge program calls edge)
    (hcall : edge.kind.call? = some (site, callee)) : Enters program calls site callee := by
  cases h with
  | inner => exact absurd rfl (innerKind_ne hcall _ _)
  | call hsite hstmt hcallee hreachable =>
    cases hcall
    exact ⟨hsite, ⟨_, hstmt⟩, hcallee, hreachable⟩
  | ret hsite hfound hstmt hcallee hreachable =>
    cases hcall
    exact ⟨hsite, ⟨_, Program.getStmt_eq_ok_iff.mpr ⟨_, hfound, hstmt⟩⟩, hcallee, hreachable⟩

/-- A call that enters a callee has one edge to it. -/
theorem Enters.isEdge_call_iff (h : Enters program calls site callee)
    (hkind : edge.kind = .call site callee) :
    IsEdge program calls edge ↔ edge = ⟨.ofSite site, .entry callee, .call site callee⟩ := by
  constructor
  · intro hedge
    cases hedge with
    | inner => exact absurd hkind (innerKind_ne rfl _ _)
    | call =>
      cases hkind
      rfl
    | ret => cases hkind
  · rintro rfl
    obtain ⟨call, hstmt⟩ := h.isCall
    exact .call h.reaches_site hstmt h.mem_callees h.reaches_callee

/-- A call that enters a callee has one edge back from it. -/
theorem Enters.exists_isEdge_ret_iff (h : Enters program calls site callee) :
    ∃ next, ∀ edge : SuperEdge, edge.kind = .ret site callee → (IsEdge program calls edge ↔
      edge = ⟨.exit callee, next, .ret site callee⟩) := by
  obtain ⟨found, call, next, hfound, hstmt, hnext⟩ := exists_next h.isCall
  refine ⟨next, fun edge hkind => ?_⟩
  constructor
  · intro hedge
    cases hedge with
    | inner => exact absurd hkind (innerKind_ne rfl _ _)
    | call => cases hkind
    | ret _ hfound' _ _ _ hsuccs =>
      cases hkind
      rw [hfound] at hfound'
      cases hfound'
      rw [(hnext _).mp hsuccs]
  · rintro rfl
    exact .ret h.reaches_site hfound hstmt h.mem_callees h.reaches_callee ((hnext next).mpr rfl)

namespace Built

variable {kind : SuperEdgeKind}

theorem countP_kind_eq_one (h : Built program calls graph) (hkind : edge.kind = kind)
    (hiff : ∀ other : SuperEdge, other.kind = kind → (IsEdge program calls other ↔ other = edge)) :
    (graph.edges.countP fun other => other.kind = kind) = 1 := by
  have hmem : edge ∈ graph.edges := h.mem_edges_iff.mpr ((hiff edge hkind).mpr rfl)
  calc (graph.edges.countP fun other => other.kind = kind)
      = graph.edges.count edge := by
        refine List.countP_congr fun other hother => ?_
        simp only [decide_eq_true_eq, beq_iff_eq]
        constructor
        · exact fun hkind => (hiff other hkind).mp (h.mem_edges_iff.mp hother)
        · rintro rfl
          exact hkind
    _ = 1 := List.count_eq_one_of_mem h.nodup_edges hmem

theorem countP_kind_eq_zero (h : Built program calls graph)
    (hcall : kind.call? = some (site, callee)) (hnot : ¬ Enters program calls site callee) :
    (graph.edges.countP fun other => other.kind = kind) = 0 := by
  rw [List.countP_eq_zero]
  intro edge hedge hkind
  rw [decide_eq_true_eq] at hkind
  exact hnot ((h.mem_edges_iff.mp hedge).enters (hkind ▸ hcall))

end Built

end Matched

section Joined

/-- A supergraph has the nodes and edges that join the control-flow graphs of the methods that a
call graph reaches, each once, and no other. -/
structure Joins (program : Program) (calls : CallGraph Site MethodId) (graph : Supergraph) :
    Prop where
  nodup_nodes : graph.nodes.Nodup
  mem_nodes_iff : ∀ node, node ∈ graph.nodes ↔ ∃ method ∈ calls.reachable.toList, ∃ cfg,
    Cfg.build program method = .ok cfg ∧ node ∈ cfg.nodes
  nodup_edges : graph.edges.Nodup
  mem_edges_iff : ∀ edge, edge ∈ graph.edges ↔ IsEdge program calls edge
  /-- A call that enters a callee has one edge into it and one back from it. -/
  matched : ∀ site callee, Enters program calls site callee →
    (graph.edges.countP fun edge => edge.kind = .call site callee) = 1 ∧
      (graph.edges.countP fun edge => edge.kind = .ret site callee) = 1
  /-- Without entering the callee a call has neither. -/
  unmatched : ∀ site callee, ¬ Enters program calls site callee →
    (graph.edges.countP fun edge => edge.kind = .call site callee) = 0 ∧
      (graph.edges.countP fun edge => edge.kind = .ret site callee) = 0
  /-- The edges that lead to nodes are all the edges. -/
  perm_inEdges : (graph.nodes.flatMap graph.inEdges).Perm graph.edges
  /-- The edges that leave nodes are all the edges. -/
  perm_outEdges : (graph.nodes.flatMap graph.outEdges).Perm graph.edges
  mem_inEdges_iff : ∀ node edge, edge ∈ graph.inEdges node ↔
    edge.target = node ∧ edge ∈ graph.outEdges edge.source

namespace Built

theorem matched (h : Built program calls graph) (henters : Enters program calls site callee) :
    (graph.edges.countP fun edge => edge.kind = .call site callee) = 1 ∧
      (graph.edges.countP fun edge => edge.kind = .ret site callee) = 1 := by
  obtain ⟨next, hret⟩ := henters.exists_isEdge_ret_iff
  exact ⟨h.countP_kind_eq_one rfl fun _ => henters.isEdge_call_iff,
    h.countP_kind_eq_one rfl hret⟩

/-- The edges at the nodes of a graph, taken by either of their ends, are all the edges. -/
theorem perm_edgesAt (h : Built program calls graph) (ending : SuperEdge → Node)
    (hend : ∀ edge, IsEdge program calls edge → ending edge ∈ graph.nodes) :
    (graph.nodes.flatMap fun node => graph.edges.filter fun edge => ending edge = node).Perm
      graph.edges := by
  rw [List.perm_ext_iff_of_nodup _ h.nodup_edges]
  · intro edge
    simp only [List.mem_flatMap, List.mem_filter, decide_eq_true_eq]
    constructor
    · rintro ⟨node, -, hedge, -⟩
      exact hedge
    · intro hedge
      exact ⟨ending edge, hend edge (h.mem_edges_iff.mp hedge), hedge, rfl⟩
  · apply nodup_flatMap_of_owner id ending
    · rw [List.map_id]
      exact h.nodup_nodes
    · exact fun node _ => h.nodup_edges.filter _
    · exact fun node _ edge hedge => of_decide_eq_true (List.mem_filter.mp hedge).2

theorem joins (h : Built program calls graph) : Joins program calls graph where
  nodup_nodes := h.nodup_nodes
  mem_nodes_iff node := by
    simp only [nodes, List.mem_flatMap, mem_mapM_iff h.cfgs]
    constructor
    · rintro ⟨cfg, ⟨method, hmethod, hcfg⟩, hnode⟩
      exact ⟨method, hmethod, cfg, hcfg, hnode⟩
    · rintro ⟨method, hmethod, cfg, hcfg, hnode⟩
      exact ⟨cfg, ⟨method, hmethod, hcfg⟩, hnode⟩
  nodup_edges := h.nodup_edges
  mem_edges_iff _ := h.mem_edges_iff
  matched _ _ := h.matched
  unmatched _ _ hnot := ⟨h.countP_kind_eq_zero rfl hnot, h.countP_kind_eq_zero rfl hnot⟩
  perm_inEdges := h.perm_edgesAt SuperEdge.target fun _ => h.target_mem_nodes
  perm_outEdges := h.perm_edgesAt SuperEdge.source fun _ => h.source_mem_nodes
  mem_inEdges_iff node edge := by simp [inEdges, outEdges, and_comm]

end Built

/-- Over a call graph whose reachable methods are methods of the program, the supergraph joins
their control-flow graphs. -/
theorem build_joins (program : Program) (calls : CallGraph Site MethodId)
    (hmethods : ∀ method ∈ calls.reachable.toList,
      method.index < program.listing.methods.size) :
    ∃ graph, build program calls = .ok graph ∧ Joins program calls graph := by
  obtain ⟨graph, hgraph⟩ := exists_build hmethods
  exact ⟨graph, hgraph, (built_of_build hgraph).joins⟩

/-- The calls of `CallGraph.loopProgram`, the last statement of the main method calling the
unreachable method as well. -/
def strayGraph : CallGraph Site MethodId :=
  CallGraph.loopGraph.addEdge ⟨.static, ⟨⟨0⟩, 1⟩, ⟨2⟩⟩

/-- The main method ends with a call that comes back from the reachable callee only. -/
theorem build_joins_stray :
    (∀ method ∈ strayGraph.reachable.toList,
      method.index < CallGraph.loopProgram.listing.methods.size) ∧
    ∃ graph, build CallGraph.loopProgram strayGraph = .ok graph ∧
      ⟨.exit ⟨1⟩, .exit ⟨0⟩, .ret ⟨⟨0⟩, 1⟩ ⟨1⟩⟩ ∈ graph.edges ∧
      (graph.edges.countP fun edge => edge.kind = .call ⟨⟨0⟩, 1⟩ ⟨2⟩) = 0 := by
  have hmethods : ∀ method ∈ strayGraph.reachable.toList,
      method.index < CallGraph.loopProgram.listing.methods.size := by decide
  obtain ⟨graph, hgraph, hjoins⟩ := build_joins CallGraph.loopProgram strayGraph hmethods
  have hreturns : IsEdge CallGraph.loopProgram strayGraph
      ⟨.exit ⟨1⟩, .exit ⟨0⟩, .ret ⟨⟨0⟩, 1⟩ ⟨1⟩⟩ :=
    .ret (by decide) rfl rfl (by decide) (by decide) (by decide)
  have hstray : ¬ Enters CallGraph.loopProgram strayGraph ⟨⟨0⟩, 1⟩ ⟨2⟩ :=
    fun henters => absurd henters.reaches_callee (by decide)
  exact ⟨hmethods, graph, hgraph, (hjoins.mem_edges_iff _).mpr hreturns,
    (hjoins.unmatched _ _ hstray).1⟩

end Joined

end Supergraph

end Dataflow

end ObjectFlow
