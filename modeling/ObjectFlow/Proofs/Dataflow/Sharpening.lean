import ObjectFlow.Proofs.Dataflow.Consistency
import ObjectFlow.Proofs.Dataflow.Equations
import ObjectFlow.Proofs.Dataflow.Keeping
import ObjectFlow.Proofs.Dataflow.Monotone

/-!
# Aliases sharpen constants

An analysis that does not look at aliases takes every loaded value to be no constant.  An
analysis that does look at them visits nodes in another order and takes loaded values from the
facts at distant stores.  In a program that does not divide, what it finds is nevertheless never
above what the other one finds: the facts of the other analysis satisfy its equations as
inequalities, and no visit leads out of the facts below such a bound.
-/

namespace ObjectFlow.Dataflow

namespace Facts

/-- All facts are below those of a bound. -/
structure Below (facts bound : Facts Fact) : Prop where
  input : ∀ node, facts.input node ≤ bound.input node
  output : ∀ node, facts.output node ≤ bound.output node

end Facts

namespace Interprocedural.Problem

variable {problem : Problem Fact} {vars : Nat} {stores : Node → Bool} {facts bound : Facts Fact}

/-- Facts that satisfy the equations as inequalities, whatever lies below them. -/
structure BoundedBy (problem : Problem Fact) (bound : Facts Fact) : Prop where
  boundary : ∀ entry ∈ problem.boundary,
    entry.2 ≤ bound.input entry.1 ∧ entry.2 ≤ bound.output entry.1
  along : ∀ node, ∀ edge ∈ problem.inEdges node, ∀ fact, fact ≤ bound.output edge.1 →
    edge.2 fact ≤ bound.input node
  transfer : ∀ node ∈ problem.nodes, ∀ facts fact, facts.Below bound → fact ≤ bound.input node →
    problem.transfer node facts fact ≤ bound.output node

/-- The equations keep facts below such a bound. -/
theorem BoundedBy.keeps (h : problem.BoundedBy bound) :
    problem.Keeps vars (fun node fact => fact ≤ bound.input node)
      fun node fact => fact ≤ bound.output node where
  empty _ := ⟨Fact.empty_le _, Fact.empty_le _⟩
  boundary := h.boundary
  along node edge hedge _ _ htidy hout hfact :=
    htidy.toCanonical.meetInto_le (h.along node edge hedge _ hout) hfact
  transfer node hnode facts fact hfacts hfact :=
    h.transfer node hnode facts fact ⟨fun n => (hfacts n).1, fun n => (hfacts n).2⟩ hfact

/-- However many visits the solver makes, its facts stay below the bound. -/
theorem BoundedBy.below_solve (h : problem.BoundedBy bound)
    (hlawful : problem.Lawful vars stores) (rounds : Nat) :
    (problem.solve rounds).facts.Below bound := by
  have hholds := h.keeps.solve hlawful rounds
  exact ⟨fun node => (hholds node).1, fun node => (hholds node).2⟩

end Interprocedural.Problem

/-- A call graph has one supergraph. -/
theorem Supergraph.Built.unique {program : Program} {calls : CallGraph Site MethodId}
    {graph graph' : Supergraph} (h : Built program calls graph) (h' : Built program calls graph') :
    graph = graph' :=
  Except.ok.inj (h.build_eq.symm.trans h'.build_eq)

namespace InterConstants

open Supergraph (Built IsEdge)

section Edges

variable {program : Program} {fact fact' : Fact}

theorem boundFact_mono (args params : List VarId) (h : fact ≤ fact') :
    boundFact args params fact ≤ boundFact args params fact' := by
  apply List.foldl_rel (r := (· ≤ ·)) (le_refl _)
  intro pair _ bound bound' hbound
  exact Fact.update_mono hbound pair.2 (h pair.1)

theorem returnedValue_mono (returned : List VarId) (h : fact ≤ fact') :
    returnedValue returned fact ≤ returnedValue returned fact' := by
  apply List.foldlRecOn (motive := (· ≤ returnedValue returned fact')) _ _ (Value.undefined_le _)
  intro value hvalue v hv
  exact Value.meet_le hvalue ((h v).trans (Value.le_foldl_meet fact'.get hv _))

theorem resultFact_mono (returned : List VarId) (result : Option VarId) (h : fact ≤ fact') :
    resultFact program returned result fact ≤ resultFact program returned result fact' := by
  unfold resultFact
  split
  · exact le_refl _
  · split
    · exact Fact.update_mono (le_refl _) _ (returnedValue_mono returned h)
    · exact le_refl _

theorem keptFact_mono (result : Option VarId) (h : fact ≤ fact') :
    keptFact result fact ≤ keptFact result fact' := by
  unfold keptFact
  split
  · exact h
  · intro v
    rw [Fact.get_remove, Fact.get_remove]
    split
    · exact le_refl _
    · exact h v

variable {calls : CallGraph Site MethodId} {graph : Supergraph} {edge : SuperEdge}
  {f : Fact → Fact}

/-- Edges are passed by facts monotonically. -/
theorem along_mono (hbuilt : Built program calls graph) (hedge : IsEdge program calls edge)
    (hf : along program edge = .ok f) (h : fact ≤ fact') : f fact ≤ f fact' := by
  cases hedge with
  | inner _ hfound hsuccs =>
    rcases innerKind_ofStmts hfound hsuccs with hkind | ⟨site, call, rfl, hstmt, hkind⟩
    · rw [hkind] at hf
      cases hf
      exact h
    · rw [hkind, along_callToReturn hstmt] at hf
      cases hf
      exact keptFact_mono call.result h
  | call _ hstmt _ hreachable =>
    obtain ⟨found, hfound⟩ := hbuilt.exists_getMethod hreachable
    rw [along_call hstmt hfound] at hf
    cases hf
    exact boundFact_mono _ _ h
  | ret _ hfound hstmt _ hreachable =>
    obtain ⟨callee, hcallee⟩ := hbuilt.exists_getMethod hreachable
    obtain ⟨returned, hreturned, -⟩ := Program.exists_returnVars (Program.lt_of_getMethod hcallee)
    have hsite := Program.getStmt_eq_ok_iff.mpr ⟨_, hfound, hstmt⟩
    rw [along_ret hsite hreturned] at hf
    cases hf
    exact resultFact_mono returned _ h

end Edges

section Nodes

variable {program : Program} {config : Config.Dataflow} {aliases : HeapAliases}
  {graph : Supergraph} {calls : CallGraph Site MethodId} {facts bound : Facts Fact} {site : Site}
  {stmt : Stmt} {node : Node} {fact : Fact} {f : Facts Fact → Fact → Fact}

/-- What a statement does to a fact when loads do not follow stores. -/
theorem transfer_of_not_aware (hblind : config.aliasAware = false)
    (hstmt : program.getStmt site = .ok stmt) :
    transfer program config aliases (.ofSite site) = .ok fun _ =>
      if stmt.isCall then id
      else Constants.transferStmt (stmt.writes?.any program.holdsInt) stmt := by
  have hsite : (Node.ofSite site).site? = some site := Node.site?_eq_some_iff.mpr rfl
  cases hcall : stmt.isCall with
  | true => simp [transfer, hsite, hstmt, hcall]
  | false =>
    simp [transfer, hsite, hstmt, hcall, hblind, Constants.tracksWritten_of_getStmt hstmt]

/-- What flows out of a node when loads do not follow stores is above what flows out of it when
they do, as long as less flows in. -/
theorem NodeEffect.le_output {aware blind : Config.Dataflow} {aliases' : HeapAliases}
    (h : NodeEffect program aware aliases node f) (hblind : blind.aliasAware = false)
    (hbound : Solved program blind calls graph aliases' bound) (hnode : node ∈ graph.nodes)
    (hdivides : ∀ site stmt, program.getStmt site = .ok stmt → stmt.divides = false)
    (hfact : fact ≤ bound.input node) : f facts fact ≤ bound.output node := by
  cases h with
  | through hsite =>
    have hsame := hbound.output node hnode (fun _ => id) (by rw [transfer, hsite]; rfl)
    rw [hsame]
    exact hfact
  | @stmt site stmt _ hstmt heffect =>
    rw [hbound.output _ hnode _ (transfer_of_not_aware hblind hstmt)]
    cases heffect with
    | call => exact hfact
    | plain hplain =>
      rw [hplain]
      exact Constants.transferStmt_mono (hdivides _ _ hstmt) _ hfact
    | @field lhs base field _ _ hlhs =>
      have hload : (Stmt.loadField lhs base field).writes?.any program.holdsInt = true := hlhs
      rw [hload]
      exact Fact.update_mono hfact lhs (Value.le_nac _)
    | @slot lhs base index _ _ hlhs =>
      have hload : (Stmt.loadArray lhs base index).writes?.any program.holdsInt = true := hlhs
      rw [hload]
      exact Fact.update_mono hfact lhs (Value.le_nac _)

/-- The facts that are found without aliases bound those that are found with them. -/
theorem Represents.boundedBy {aware blind : Config.Dataflow} {aliases' : HeapAliases}
    {problem : Interprocedural.Problem Fact}
    (h : Represents program aware aliases graph problem) (hbuilt : Built program calls graph)
    (hpaired : Paired program aliases) (hblind : blind.aliasAware = false)
    (hbound : Solved program blind calls graph aliases' bound)
    (hdivides : ∀ site stmt, program.getStmt site = .ok stmt → stmt.divides = false) :
    problem.BoundedBy bound where
  boundary entry hentry := by
    obtain ⟨method, hmethod, hreachable, hnode, hfact⟩ := h.mem_boundary_iff.mp hentry
    rw [hbuilt.entries] at hmethod
    rw [hbuilt.methods_eq] at hreachable
    have hinput := hbound.boundary method hmethod hreachable _ hfact
    obtain ⟨found, hfound⟩ := hbuilt.exists_getMethod hreachable
    have hmem : Node.entry method ∈ graph.nodes :=
      hbuilt.mem_nodes_iff.mpr ⟨hreachable, found, hfound, trivial⟩
    have hsame : bound.output (.entry method) = bound.input (.entry method) :=
      hbound.output _ hmem (fun _ => id) rfl
    rw [hnode, hsame]
    exact ⟨hinput, hinput⟩
  along node edge hedge fact hfact := by
    obtain ⟨-, found, hfound, htarget, hsource, hf⟩ := (h.mem_inEdges_iff hbuilt).mp hedge
    rw [← hsource] at hfact
    rw [← htarget]
    exact (along_mono hbuilt hfound hf hfact).trans (hbound.flows found _ hfound hf)
  transfer node hnode facts fact _ hfact := by
    rw [h.nodes] at hnode
    obtain ⟨f, hf, heffect⟩ := exists_transfer hpaired (exists_getStmt hbuilt hnode)
    rw [h.transfer node hnode] at hf
    rw [Except.ok.inj hf]
    exact heffect.le_output hblind hbound hnode hdivides hfact

end Nodes

/-- Every node of the supergraph has a fact after it. -/
theorem get?_after_of_mem {program : Program} {config : Config.Dataflow}
    {result : PointsTo.Result} {graph : Supergraph} {facts : Facts Fact} {node : Node}
    (hanalyze : analyze program config result = .ok facts)
    (hbuilt : Built program result.callGraph graph) (hnode : node ∈ graph.nodes) :
    facts.after.get? node = some (facts.output node) := by
  obtain ⟨fact, hfact⟩ :=
    Option.isSome_iff_exists.mp ((isSome_after_iff hanalyze hbuilt).mpr hnode)
  simp [Facts.output, hfact]

/-- What is found with aliases is below what is found without them. -/
theorem below_of_analyze {program : Program} {policy : PointsTo.Policy} {result : PointsTo.Result}
    {graph : Supergraph} {aliases : HeapAliases} {aware blind : Config.Dataflow}
    {facts bound : Facts Fact} (h : result.Complete program policy)
    (hdivides : ∀ site stmt, program.getStmt site = .ok stmt → stmt.divides = false)
    (hanalyze : analyze program aware result = .ok facts) (hblind : blind.aliasAware = false)
    (hbuilt : Built program result.callGraph graph)
    (hbound : Solved program blind result.callGraph graph aliases bound) : facts.Below bound := by
  obtain ⟨graph', aliases', hprepare, hbuilt', -, hpaired⟩ :=
    exists_prepare aware h.reaches h.entries
  obtain rfl := hbuilt.unique hbuilt'
  rw [analyze, hprepare, ok_bind] at hanalyze
  obtain ⟨progress, hsolve, hpure⟩ := bind_eq_ok_iff.mp hanalyze
  cases hpure
  obtain ⟨problem, hproblem, hpure⟩ := bind_eq_ok_iff.mp hsolve
  cases hpure
  have hrepresents := represents_of_problem hproblem
  exact (hrepresents.boundedBy hbuilt hpaired hblind hbound hdivides).below_solve
    (hrepresents.lawful hbuilt hpaired) _

/-- Aliases only sharpen constants.  With any result of the points-to analysis of a program that
does not divide, constant propagation gives facts before and after every node of the supergraph,
and every value that it finds with aliases is below the one that it finds without them. -/
theorem aliases_sharpen_constants (program : Program)
    (hdivides : ∀ method ∈ program.listing.methods, ∀ stmt ∈ method.stmts, stmt.divides = false)
    {points : Config.PointsTo} {result : PointsTo.Result}
    (hresult : PointsTo.analyze program points = .ok result) :
    ∃ graph facts facts', Supergraph.build program result.callGraph = .ok graph ∧
      analyze program { aliasAware := true } result = .ok facts ∧
      analyze program { aliasAware := false } result = .ok facts' ∧
      ∀ node ∈ graph.nodes, ∃ before after before' after',
        facts.before.get? node = some before ∧ facts.after.get? node = some after ∧
        facts'.before.get? node = some before' ∧ facts'.after.get? node = some after' ∧
        ∀ v, before.get v ≤ before'.get v ∧ after.get v ≤ after'.get v := by
  have hstmts : ∀ site stmt, program.getStmt site = .ok stmt → stmt.divides = false := by
    intro site stmt hstmt
    obtain ⟨method, hmethod, hstmt⟩ := Program.getStmt_eq_ok_iff.mp hstmt
    have hmem := Array.mem_of_getElem? (Program.getMethod_eq_ok_iff.mp hmethod)
    exact hdivides method hmem stmt (Array.mem_of_getElem? hstmt)
  have hcomplete := PointsTo.complete_of_analyze hresult
  obtain ⟨graph, _, facts, hbuilt, -, -, hanalyze, hsolved⟩ :=
    exists_analyze { aliasAware := true } hcomplete.reaches hcomplete.entries
  obtain ⟨graph', _, facts', hbuilt', -, -, hanalyze', hsolved'⟩ :=
    exists_analyze { aliasAware := false } hcomplete.reaches hcomplete.entries
  obtain rfl := hbuilt.unique hbuilt'
  have hbelow := below_of_analyze hcomplete hstmts hanalyze rfl hbuilt hsolved'
  refine ⟨graph, facts, facts', hbuilt.build_eq, hanalyze, hanalyze', fun node hnode => ?_⟩
  exact ⟨_, _, _, _, hsolved.before node hnode, get?_after_of_mem hanalyze hbuilt hnode,
    hsolved'.before node hnode, get?_after_of_mem hanalyze' hbuilt hnode,
    fun v => ⟨hbelow.input node v, hbelow.output node v⟩⟩

/-- The load of `counterProgram` gets seven when aliases are looked at, and no constant
otherwise. -/
theorem aliases_sharpen_constants_counter : ∃ result facts facts' after after',
    PointsTo.analyze counterProgram .standard = .ok result ∧
      analyze counterProgram { aliasAware := true } result = .ok facts ∧
      analyze counterProgram { aliasAware := false } result = .ok facts' ∧
      facts.after.get? (.stmt ⟨0⟩ 3) = some after ∧ facts'.after.get? (.stmt ⟨0⟩ 3) = some after' ∧
      after.get ⟨2⟩ = .constant 7 ∧ after'.get ⟨2⟩ = .nac ∧ ∀ v, after.get v ≤ after'.get v := by
  have hvalues : (do
      let result ← PointsTo.analyze counterProgram .standard
      let facts ← analyze counterProgram { aliasAware := true } result
      let facts' ← analyze counterProgram { aliasAware := false } result
      return (facts.after.get? (.stmt ⟨0⟩ 3) |>.map (Fact.get · ⟨2⟩),
        facts'.after.get? (.stmt ⟨0⟩ 3) |>.map (Fact.get · ⟨2⟩))).toOption =
          some (some (.constant 7), some .nac) := by
    decide +kernel
  have hdivides : ∀ method ∈ counterProgram.listing.methods, ∀ stmt ∈ method.stmts,
      stmt.divides = false := by
    decide
  obtain ⟨final, hsolve, -⟩ := PointsTo.State.exists_solve counterProgram (.ofConfig .standard)
  have hresult : PointsTo.analyze counterProgram .standard =
      .ok ⟨final, counterProgram.entries⟩ := by
    simp [PointsTo.analyze, hsolve]
  obtain ⟨graph, facts, facts', hgraph, hfacts, hfacts', hnodes⟩ :=
    aliases_sharpen_constants counterProgram hdivides hresult
  have hnode : Node.ofSite ⟨⟨0⟩, 3⟩ ∈ graph.nodes := by
    apply (Supergraph.built_of_build hgraph).ofSite_mem_nodes_iff.mpr
    have hentry : (⟨0⟩ : MethodId) ∈ counterProgram.entries := by decide
    exact ⟨PointsTo.Result.mem_reachable_callGraph_iff.mpr (.inl hentry), _, rfl⟩
  obtain ⟨before, after, before', after', -, hafter, -, hafter', hle⟩ := hnodes _ hnode
  rw [hresult, ok_bind, hfacts, ok_bind, hfacts', ok_bind] at hvalues
  have hload : Node.stmt ⟨0⟩ 3 = .ofSite ⟨⟨0⟩, 3⟩ := rfl
  rw [hload, hafter, hafter'] at hvalues
  simp only [pure_eq_ok, Except.toOption, Option.map_some, Option.some.injEq,
    Prod.mk.injEq] at hvalues
  exact ⟨_, facts, facts', after, after', hresult, hfacts, hfacts', hafter, hafter', hvalues.1,
    hvalues.2, fun v => (hle v).2⟩

end InterConstants

end ObjectFlow.Dataflow
