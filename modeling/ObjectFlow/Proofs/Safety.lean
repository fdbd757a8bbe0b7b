import ObjectFlow.Proofs.CallGraph.Hierarchy
import ObjectFlow.Proofs.Dataflow.Elimination
import ObjectFlow.Proofs.Dataflow.InterConstants
import ObjectFlow.Proofs.PointsTo.Soundness

/-!
# Checked programs never fault

A look-up of a handle that a table does not have is a fault, and ends an analysis without an
answer.  The checks that a listing passes before it becomes a program are all that the analyses
need: none of them ever faults, whatever the settings are.  Handles come from the listing, where
the checks have seen them, or from tables that an analysis filled itself; the graphs of an
analysis stay within the points of the program.
-/

namespace ObjectFlow

variable {program : Program}

/-- A point of a method of the program. -/
def Node.Exists (program : Program) (node : Node) : Prop :=
  ∃ method, program.getMethod node.method = .ok method ∧ Node.Inside method.stmts.size node.point

/-- The nodes of the graph are points of the program, and its edges join them. -/
structure Cfg.Closed (program : Program) (cfg : Cfg) : Prop where
  nodes : ∀ node ∈ cfg.nodes, node.Exists program
  edges : ∀ source kind target, (source, kind, target) ∈ cfg.edges →
    source ∈ cfg.nodes ∧ target ∈ cfg.nodes

theorem Cfg.closed_ofStmts {id : MethodId} {method : Method}
    (hmethod : program.getMethod id = .ok method) : (ofStmts id method.stmts).Closed program where
  nodes node hnode := by
    obtain ⟨hname, hinside⟩ := mem_nodes_iff.mp hnode
    refine ⟨method, ?_, hinside⟩
    rw [hname]
    exact hmethod
  edges source kind target hedge :=
    mem_nodes_of_mem_succs (mem_succs_iff.mpr ⟨kind, hedge⟩)

namespace Dataflow

/-- The nodes of the graph are points of the program, and its edges join them. -/
structure Supergraph.Closed (program : Program) (graph : Supergraph) : Prop where
  nodes : ∀ node ∈ graph.nodes, node.Exists program
  edges : ∀ edge ∈ graph.edges, edge.source ∈ graph.nodes ∧ edge.target ∈ graph.nodes

variable {calls : CallGraph Site MethodId}

theorem Supergraph.Built.closed {graph : Supergraph} (h : Built program calls graph) :
    graph.Closed program where
  nodes _ hnode := (h.mem_nodes_iff.mp hnode).2
  edges _ hedge :=
    have hedge := h.mem_edges_iff.mp hedge
    ⟨h.source_mem_nodes hedge, h.target_mem_nodes hedge⟩

/-- A call graph over the methods of the program has a supergraph within the program. -/
theorem Supergraph.exists_closed
    (h : ∀ method ∈ calls.reachable.toList, method.index < program.listing.methods.size) :
    ∃ graph, build program calls = .ok graph ∧ graph.Closed program := by
  obtain ⟨graph, hgraph⟩ := exists_build h
  exact ⟨graph, hgraph, (built_of_build hgraph).closed⟩

end Dataflow

open Dataflow

/-- No analysis of a method of the program faults. -/
theorem exists_method_answers {id : MethodId} (hid : id.index < program.listing.methods.size) :
    (∃ cfg, Cfg.build program id = .ok cfg ∧ cfg.Closed program) ∧
      (∃ facts, Constants.analyze program id = .ok facts) ∧
      (∃ facts, Liveness.analyze program id = .ok facts) ∧
      ∃ dead, DeadCode.analyze program id = .ok dead := by
  obtain ⟨method, hmethod⟩ := Program.exists_getMethod hid
  obtain ⟨constants, hconstants, -⟩ := Constants.exists_analyze hmethod
  obtain ⟨live, hlive, -⟩ := Liveness.exists_analyze hmethod
  obtain ⟨-, -, -, dead, hdead, -⟩ := DeadCode.exists_analyze hmethod
  exact ⟨⟨_, Cfg.build_of_getMethod hmethod, Cfg.closed_ofStmts hmethod⟩, ⟨constants, hconstants⟩,
    ⟨live, hlive⟩, dead, hdead⟩

/-- No analysis of a program faults, under any valid settings: neither those of one method, nor
the survey of the hierarchy, nor a step of the points-to analysis or a question to its result,
nor the constants through calls and the heap.  The graphs that they build stay within the
program. -/
theorem analyses_never_fault (program : Program) (config : Config.PointsTo)
    (hvalid : config.validate = .ok ()) (settings : Config.Dataflow) :
    (∀ id : MethodId, id.index < program.listing.methods.size →
      (∃ cfg, Cfg.build program id = .ok cfg ∧ cfg.Closed program) ∧
        (∃ facts, Constants.analyze program id = .ok facts) ∧
        (∃ facts, Liveness.analyze program id = .ok facts) ∧
        ∃ dead, DeadCode.analyze program id = .ok dead) ∧
    (∃ calls, CallGraph.ofHierarchy program = .ok calls ∧
      ∃ graph, Supergraph.build program calls = .ok graph ∧ graph.Closed program) ∧
    (∀ state, PointsTo.State.Reaches program (.ofConfig config) state →
      ∃ turn, state.step program (.ofConfig config) = .ok turn) ∧
    ∃ result, PointsTo.run program config = .ok result ∧
      (∀ v, ∃ objects, result.pointsTo v = .ok objects) ∧
      (∃ graph, Supergraph.build program result.callGraph = .ok graph ∧ graph.Closed program) ∧
      (∃ prepared, InterConstants.prepare program settings result = .ok prepared) ∧
      ∃ facts, InterConstants.analyze program settings result = .ok facts := by
  refine ⟨fun id hid => exists_method_answers hid, ?_,
    fun state hreaches => hreaches.exists_step, ?_⟩
  · obtain ⟨calls, hcalls, hsurveys⟩ := CallGraph.exists_ofHierarchy program
    exact ⟨calls, hcalls, Supergraph.exists_closed fun method hmethod =>
      ((hsurveys.reachable method).mp hmethod).index_lt⟩
  · obtain ⟨result, hrun, hcomplete⟩ := PointsTo.exists_run program hvalid
    have hentries := hcomplete.entries
    obtain ⟨graph, aliases, hprepare, -⟩ :=
      InterConstants.exists_prepare settings hcomplete.reaches hentries
    obtain ⟨-, -, facts, -, -, -, hanalyze, -⟩ :=
      InterConstants.exists_analyze settings hcomplete.reaches hentries
    refine ⟨result, hrun, fun v => ?_, Supergraph.exists_closed fun method hmethod =>
      InterConstants.method_lt_of_reachable hcomplete.reaches hentries hmethod,
      ⟨_, hprepare⟩, facts, hanalyze⟩
    obtain ⟨objects, hobjects, -⟩ := PointsTo.Result.exists_pointsTo hcomplete.reaches v
    exact ⟨objects, hobjects⟩

/-- The analyses of `boxProgram`, with heap accesses that are matched by what they point to. -/
theorem analyses_never_fault_box :
    Config.PointsTo.standard.validate = .ok () ∧
      (∃ dead, DeadCode.analyze PointsTo.boxProgram ⟨0⟩ = .ok dead) ∧
      ∃ result facts, PointsTo.run PointsTo.boxProgram .standard = .ok result ∧
        InterConstants.analyze PointsTo.boxProgram ⟨true⟩ result = .ok facts := by
  have hvalid : Config.PointsTo.standard.validate = .ok () := by decide
  obtain ⟨hmethods, -, -, result, hrun, -, -, -, facts, hfacts⟩ :=
    analyses_never_fault PointsTo.boxProgram .standard hvalid ⟨true⟩
  obtain ⟨-, -, -, hdead⟩ := hmethods ⟨0⟩ (by decide)
  exact ⟨hvalid, hdead, result, facts, hrun, hfacts⟩

end ObjectFlow
