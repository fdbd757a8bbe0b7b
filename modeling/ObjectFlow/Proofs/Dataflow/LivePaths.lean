import Mathlib.Data.List.Chain
import ObjectFlow.Proofs.Dataflow.Equations
import ObjectFlow.Proofs.Dataflow.Keeping
import ObjectFlow.Proofs.Dataflow.MethodFacts

/-!
# Live variables and paths

A variable is live after a node when a path of the control-flow graph leads from there to a
statement that reads it, and nothing on the way writes it.  Along such a path, from its end to its
start, any solution of the equations has the variable.  A solution may have more, since a variable
can keep itself alive around a cycle.  The solver starts with nothing, and each visit adds only
what some path reads.  What it ends with is therefore exact, also at nodes that control never
gets to.
-/

namespace ObjectFlow

namespace Cfg

variable {cfg : Cfg} {node : Node} {v : VarId}

/-- The statement of a node reads a variable. -/
def Reads (cfg : Cfg) (node : Node) (v : VarId) : Prop :=
  ∃ stmt, cfg.stmt? node = some stmt ∧ v ∈ stmt.uses

/-- The statement of a node writes a variable. -/
def Writes (cfg : Cfg) (node : Node) (v : VarId) : Prop :=
  ∃ stmt, cfg.stmt? node = some stmt ∧ stmt.writes? = some v

/-- A path goes from a node, through nodes that do not write a variable, to a node that reads
it. -/
def ReadAhead (cfg : Cfg) (node : Node) (v : VarId) : Prop :=
  ∃ passed last, (node :: passed ++ [last]).IsChain (fun a b => b ∈ cfg.succs a) ∧
    cfg.Reads last v ∧ ∀ other ∈ passed, ¬ cfg.Writes other v

/-- A path begins with its first edge. -/
theorem readAhead_of_succs {next : Node} (hnext : next ∈ cfg.succs node)
    (h : cfg.Reads next v ∨ ¬ cfg.Writes next v ∧ cfg.ReadAhead next v) :
    cfg.ReadAhead node v := by
  rcases h with hreads | ⟨hwrites, passed, last, hchain, hreads, hpassed⟩
  · exact ⟨[], next, by simpa using hnext, hreads, by simp⟩
  · refine ⟨next :: passed, last, hchain.cons_cons hnext, hreads, ?_⟩
    exact List.forall_mem_cons.mpr ⟨hwrites, hpassed⟩

end Cfg

namespace Dataflow.Liveness

variable {program : Program} {id : MethodId} {cfg : Cfg} {node : Node}
  {v : VarId} {equations : Problem (SortedSet VarId)} {progress : Progress (SortedSet VarId)}

/-- What a node reads is live before it, and what is live after it unless the node writes it. -/
theorem Represents.mem_transfer_iff (h : Represents program cfg equations)
    (hbuild : Cfg.build program id = .ok cfg) (hnode : node ∈ cfg.nodes)
    {live : SortedSet VarId} :
    v ∈ (equations.transfer node live).toList ↔
      cfg.Reads node v ∨ ¬ cfg.Writes node v ∧ v ∈ live.toList := by
  have htransfer := h.transfer node hnode
  obtain ⟨method, hmethod, rfl⟩ := Cfg.build_eq_ok_iff.mp hbuild
  rcases site?_eq_none_or_stmt hnode with hsite | ⟨index, stmt, rfl, hstmt⟩
  · have hnone : (Cfg.ofStmts id method.stmts).stmt? node = none := by
      have hindex : node.index? = none := by simpa [Node.site?] using hsite
      rw [Cfg.stmt?, hindex, Option.bind_none]
    rw [Liveness.transfer, hsite] at htransfer
    rw [← Except.ok.inj htransfer]
    simp [Cfg.Reads, Cfg.Writes, hnone]
  · have hat : (Cfg.ofStmts id method.stmts).stmt? (.ofSite ⟨id, index⟩) = some stmt := hstmt
    rw [transfer_ofSite (getStmt_of_getElem? hmethod hstmt)] at htransfer
    rw [← Except.ok.inj htransfer, mem_transferStmt]
    simp [Cfg.Reads, Cfg.Writes, hat, and_comm]

/-- Each visit adds only what is read ahead. -/
theorem Represents.keeps (h : Represents program cfg equations)
    (hbuild : Cfg.build program id = .ok cfg) :
    equations.Keeps (fun node live => ∀ v ∈ live.toList, cfg.ReadAhead node v)
      fun node live => ∀ v ∈ live.toList,
        cfg.Reads node v ∨ ¬ cfg.Writes node v ∧ cfg.ReadAhead node v where
  initial node := by
    rw [h.initial]
    exact ⟨nofun, nofun⟩
  boundary := by
    rw [h.boundaryFact]
    exact ⟨nofun, nofun⟩
  meet node source hsource out live hout hlive v hv := by
    -- The sources of a node are its successors, since facts flow backwards.
    rw [h.sources] at hsource
    rw [h.meet] at hv
    rcases SortedSet.mem_union.mp hv with hv | hv
    · exact hlive v hv
    · exact Cfg.readAhead_of_succs hsource (hout v hv)
  transfer node hnode live hlive v hv := by
    rw [h.nodes, List.mem_reverse] at hnode
    exact ((h.mem_transfer_iff hbuild hnode).mp hv).imp_right fun hv => ⟨hv.1, hlive v hv.2⟩

variable {scale : Scale (SortedSet VarId)}

/-- In a solution this holds of what is live before and after each node.  At the exit nothing
is. -/
theorem Represents.mem_outputOf_iff (h : Represents program cfg equations)
    (hbuild : Cfg.build program id = .ok cfg) (hsolution : equations.Solution scale progress)
    (hnode : node ∈ cfg.nodes) :
    v ∈ (equations.outputOf progress node).toList ↔
      cfg.Reads node v ∨ ¬ cfg.Writes node v ∧ v ∈ (equations.inputOf progress node).toList := by
  by_cases hexit : node = equations.boundary
  · have hreads : ¬ cfg.Reads equations.boundary v := by
      rw [h.boundary]
      exact nofun
    have hempty : v ∉ equations.boundaryFact.toList := by
      rw [h.boundaryFact]
      exact nofun
    rw [hexit, hsolution.boundary_output, hsolution.boundary_input]
    exact iff_of_false hempty (not_or.mpr ⟨hreads, fun hv => hempty hv.2⟩)
  · have hmem : node ∈ equations.nodes := by
      rw [h.nodes]
      exact List.mem_reverse.mpr hnode
    rw [(hsolution.settled node hmem hexit).output]
    exact h.mem_transfer_iff hbuild hnode

/-- What is live before a node is live after the nodes that lead to it. -/
theorem Represents.flows (h : Represents program cfg equations)
    (hbuild : Cfg.build program id = .ok cfg) (hsolution : equations.Solution scale progress)
    {source target : Node} (hedge : target ∈ cfg.succs source) :
    equations.outputOf progress target ≤ equations.inputOf progress source := by
  obtain ⟨method, -, rfl⟩ := Cfg.build_eq_ok_iff.mp hbuild
  have hmem : source ∈ equations.nodes := by
    rw [h.nodes]
    exact List.mem_reverse.mpr (Cfg.mem_nodes_of_mem_succs hedge).1
  have hne : source ≠ equations.boundary := by
    rw [h.boundary]
    exact Cfg.ne_exit_of_mem_succs hedge
  exact (hsolution.settled source hmem hne).flows target (h.sources ▸ hedge)

/-- A solution has what is read ahead, by induction on the nodes that are passed. -/
theorem Represents.mem_inputOf_of_readAhead (h : Represents program cfg equations)
    (hbuild : Cfg.build program id = .ok cfg) (hsolution : equations.Solution scale progress)
    (hahead : cfg.ReadAhead node v) : v ∈ (equations.inputOf progress node).toList := by
  have htarget : ∀ {source target}, target ∈ cfg.succs source → target ∈ cfg.nodes := by
    obtain ⟨method, -, rfl⟩ := Cfg.build_eq_ok_iff.mp hbuild
    exact fun hedge => (Cfg.mem_nodes_of_mem_succs hedge).2
  obtain ⟨passed, last, hchain, hreads, hpassed⟩ := hahead
  induction passed generalizing node with
  | nil =>
    obtain ⟨hedge, -⟩ := List.isChain_cons_cons.mp hchain
    apply h.flows hbuild hsolution hedge
    exact (h.mem_outputOf_iff hbuild hsolution (htarget hedge)).mpr (.inl hreads)
  | cons next passed ih =>
    obtain ⟨hedge, hrest⟩ := List.isChain_cons_cons.mp hchain
    obtain ⟨hwrites, hpassed⟩ := List.forall_mem_cons.mp hpassed
    have hlive := ih hrest hpassed
    apply h.flows hbuild hsolution hedge
    exact (h.mem_outputOf_iff hbuild hsolution (htarget hedge)).mpr (.inr ⟨hwrites, hlive⟩)

/-- Liveness is exact.  It gives sets before and after every node of a method.  The variables after
a node are exactly those that some path from the node reads before any write.  The variables before
a statement are exactly those that it reads, and those after it that it does not write. -/
theorem analyze_iff_readAhead (program : Program) {id : MethodId} {method : Method}
    (hmethod : program.getMethod id = .ok method) :
    ∃ cfg facts, Cfg.build program id = .ok cfg ∧ analyze program id = .ok facts ∧
      ∀ node ∈ cfg.nodes, ∃ before after, facts.before.get? node = some before ∧
        facts.after.get? node = some after ∧
        ∀ v, (after.contains v = true ↔ cfg.ReadAhead node v) ∧
          ∀ stmt, cfg.stmt? node = some stmt → (before.contains v = true ↔
            v ∈ stmt.uses ∨ stmt.writes? ≠ some v ∧ after.contains v = true) := by
  obtain ⟨equations, rounds, hrepresents, hdescribes, hsolution, hanalyze⟩ :=
    exists_solution hmethod
  have hbuild := Cfg.build_of_getMethod hmethod
  have hkeeps := (hrepresents.keeps hbuild).solve hdescribes.lawful rounds
  refine ⟨_, _, hbuild, hanalyze, fun node hnode => ?_⟩
  have hmem := (hdescribes.mem_nodes node).mpr hnode
  refine ⟨_, _, hsolution.output node hmem, hsolution.input node hmem, fun v => ⟨?_, ?_⟩⟩
  · rw [SortedSet.contains_iff_mem]
    exact ⟨fun hv => (hkeeps node).1 v hv, hrepresents.mem_inputOf_of_readAhead hbuild hsolution⟩
  · intro stmt hstmt
    rw [SortedSet.contains_iff_mem, SortedSet.contains_iff_mem,
      hrepresents.mem_outputOf_iff hbuild hsolution hnode]
    simp [Cfg.Reads, Cfg.Writes, hstmt]

open Constants (spinProgram spinListing)

/-- After the first statement of the loop the parameter is live: the path round the loop comes back
to that statement.  The divisor is not: the second statement is on all paths, and writes it. -/
theorem analyze_iff_readAhead_spin : ∃ cfg facts after,
    Cfg.build (spinProgram .div) ⟨0⟩ = .ok cfg ∧ analyze (spinProgram .div) ⟨0⟩ = .ok facts ∧
      facts.after.get? (.stmt ⟨0⟩ 0) = some after ∧
      cfg.ReadAhead (.stmt ⟨0⟩ 0) ⟨0⟩ ∧ after.contains ⟨0⟩ = true ∧
      after.contains ⟨1⟩ = false ∧ ¬ cfg.ReadAhead (.stmt ⟨0⟩ 0) ⟨1⟩ := by
  have hmethod : (spinProgram .div).getMethod ⟨0⟩ = .ok (spinListing .div).methods[0] := rfl
  obtain ⟨cfg, facts, hcfg, hfacts, hnodes⟩ := analyze_iff_readAhead (spinProgram .div) hmethod
  have hcfg' := hcfg
  rw [Cfg.build_of_getMethod hmethod] at hcfg'
  cases hcfg'
  obtain ⟨before, after, -, hafter, hlive⟩ := hnodes (.stmt ⟨0⟩ 0) (by decide)
  have hread : (Cfg.ofStmts ⟨0⟩ (spinListing .div).methods[0].stmts).ReadAhead (.stmt ⟨0⟩ 0) ⟨0⟩ :=
    ⟨[.stmt ⟨0⟩ 1, .stmt ⟨0⟩ 2], .stmt ⟨0⟩ 0, by decide, ⟨_, rfl, by decide⟩, by
      rintro other hother ⟨stmt, hstmt, hwrites⟩
      rcases List.mem_pair.mp hother with rfl | rfl <;> cases hstmt <;> cases hwrites⟩
  have hdivisor : after.contains ⟨1⟩ = false := by
    have hvalue : ((analyze (spinProgram .div) ⟨0⟩).toOption.bind fun facts =>
        (facts.after.get? (.stmt ⟨0⟩ 0)).map (·.contains ⟨1⟩)) = some false := by
      decide +kernel
    simpa [hfacts, hafter, Except.toOption] using hvalue
  refine ⟨_, facts, after, hcfg, hfacts, hafter, hread, (hlive ⟨0⟩).1.mpr hread, hdivisor, ?_⟩
  rw [← (hlive ⟨1⟩).1, hdivisor]
  exact Bool.false_ne_true

end Dataflow.Liveness

end ObjectFlow
