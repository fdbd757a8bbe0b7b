import ObjectFlow.Proofs.Dataflow.HeapPairs

/-!
# The facts of constant propagation are consistent

When the solver is done, its facts agree with each other.  What an edge sends is below what
flows into its target, and what flows out of a node is what the node does to what flows in,
seen from the final facts.  In particular a load has exactly the values of the stores that it
may meet as they stand in the end: no store has changed after the last visit of a load that
it concerns.

The stores of a load are described here by the program and the points-to result alone, and
the value of a load as the least one above all that they store.
-/

namespace ObjectFlow.Dataflow

namespace Value

/-- Taking values together one after the other gives the least value above all of them. -/
theorem isLUB_foldl_meet {α : Type} (f : α → Value) (items : List α) :
    IsLUB {value | ∃ item ∈ items, value = f item}
      (items.foldl (fun value item => value.meet (f item)) undefined) := by
  refine ⟨?_, fun bound hbound => ?_⟩
  · rintro _ ⟨item, hitem, rfl⟩
    exact le_foldl_meet f hitem _
  · have hfold : ∀ start, start ≤ bound →
        items.foldl (fun value item => value.meet (f item)) start ≤ bound := by
      have hall : ∀ item ∈ items, f item ≤ bound := fun item hitem => hbound ⟨item, hitem, rfl⟩
      clear hbound
      induction items with
      | nil => exact fun _ hstart => hstart
      | cons item items ih =>
        obtain ⟨hitem, hrest⟩ := List.forall_mem_cons.mp hall
        exact fun start hstart => ih hrest _ (meet_le hstart hitem)
    exact hfold _ (undefined_le bound)

/-- Values that say nothing do not matter for the least value above some values. -/
theorem isLUB_of_iff {set set' : Set Value} {value : Value} (h : IsLUB set value)
    (hiff : ∀ v, v ≠ undefined → (v ∈ set ↔ v ∈ set')) : IsLUB set' value := by
  refine ⟨fun v hv => ?_, fun bound hbound => h.2 fun v hv => ?_⟩
  · by_cases hundef : v = undefined
    · exact hundef ▸ undefined_le value
    · exact h.1 ((hiff v hundef).mpr hv)
  · by_cases hundef : v = undefined
    · exact hundef ▸ undefined_le bound
    · exact hbound ((hiff v hundef).mp hv)

end Value

namespace Interprocedural.Problem

/-- Facts are kept for the nodes of the equations only. -/
structure Confined (problem : Problem Fact) (progress : Progress Fact) : Prop where
  queue : ∀ node ∈ progress.queue, node ∈ problem.nodes
  after : ∀ node, (progress.facts.after.get? node).isSome ↔ node ∈ problem.nodes

variable {problem : Problem Fact}

theorem isSome_after_given {facts : Facts Fact} {boundary : List (Node × Fact)} {node : Node} :
    ((given facts boundary).after.get? node).isSome ↔
      (facts.after.get? node).isSome ∨ node ∈ boundary.map Prod.fst := by
  induction boundary generalizing facts with
  | nil => simp [given]
  | cons entry boundary ih =>
    rw [given_cons, ih]
    by_cases hnode : node = entry.1 <;> simp [Facts.setAfter, Facts.setBefore, hnode]

theorem confined_start (hboundary : ∀ entry ∈ problem.boundary, entry.1 ∈ problem.nodes) :
    problem.Confined problem.start := by
  refine ⟨fun _ hnode => hnode, fun node => ?_⟩
  rw [start_facts, isSome_after_given]
  have hgiven : node ∈ problem.boundary.map Prod.fst → node ∈ problem.nodes := by
    intro hmem
    obtain ⟨entry, hentry, rfl⟩ := List.mem_map.mp hmem
    exact hboundary entry hentry
  by_cases hnode : node ∈ problem.nodes
  · simp [hnode]
  · simpa [hnode] using fun fact hmem => hnode (hgiven (List.mem_map.mpr ⟨_, hmem, rfl⟩))

theorem Confined.visit {progress : Progress Fact} (h : problem.Confined progress) :
    problem.Confined (problem.visit progress).state := by
  unfold Problem.visit
  split
  · exact h
  · next node rest hqueue =>
    have hnode : node ∈ problem.nodes := h.queue node (hqueue ▸ List.mem_cons_self)
    have hrest : ∀ other ∈ rest, other ∈ problem.nodes :=
      fun other hother => h.queue other (hqueue ▸ List.mem_cons_of_mem node hother)
    have henqueue : ∀ {more queue : List Node}, (∀ other ∈ queue, other ∈ problem.nodes) →
        ∀ other ∈ more.foldl problem.enqueue queue, other ∈ problem.nodes := by
      intro more queue hqueue other hother
      rcases mem_foldl_enqueue.mp hother with hold | hnew
      · exact hqueue other hold
      · exact hnew.2
    refine ⟨?_, fun other => ?_⟩
    · dsimp only [Iteration.Turn.state]
      split
      · exact henqueue (henqueue hrest)
      · exact henqueue hrest
    · dsimp only [Iteration.Turn.state]
      by_cases hother : other = node
      · simp [Facts.setAfter, hother, hnode]
      · simpa [Facts.setAfter, Facts.setBefore, hother] using h.after other

theorem confined_solve (hboundary : ∀ entry ∈ problem.boundary, entry.1 ∈ problem.nodes)
    (rounds : Nat) : problem.Confined (problem.solve rounds) :=
  Iteration.settle_keeps (fun _ h => h.visit) rounds (confined_start hboundary)

end Interprocedural.Problem

namespace InterConstants

open Supergraph (Built)

/-- Two accesses of one field may go to one place: both are static, or both go through
variables that may point to a common object. -/
def SamePlace (result : PointsTo.Result) : Option VarId → Option VarId → Prop
  | none, none => True
  | some base, some base' => MayMeet result base base'
  | _, _ => False

section Stored

variable (program : Program) (result : PointsTo.Result) (graph : Supergraph) (facts : Facts Fact)

/-- What the stores of the supergraph put where a load of a field may find it. -/
def storedInField (base : Option VarId) (field : FieldId) : Set Value :=
  {value | ∃ store base' rhs, Node.ofSite store ∈ graph.nodes ∧
    program.getStmt store = .ok (.storeField base' field rhs) ∧ SamePlace result base base' ∧
    value = (facts.output (.ofSite store)).get rhs}

/-- What the stores of the supergraph put where a load of an array may find it, when
`position` is the index of the load. -/
def storedInSlot (base : VarId) (position : Value) : Set Value :=
  {value | ∃ store base' index rhs, Node.ofSite store ∈ graph.nodes ∧
    program.getStmt store = .ok (.storeArray base' index rhs) ∧ MayMeet result base base' ∧
    position.mayEqual ((facts.output (.ofSite store)).get index) = true ∧
    value = (facts.output (.ofSite store)).get rhs}

/-- The facts agree with each other.  `facts.input` is what flows into a node and
`facts.output` what flows out of it. -/
structure Consistent : Prop where
  given : ∀ node ∈ graph.nodes, facts.before.get? node = some (facts.input node) ∧
    facts.after.get? node = some (facts.output node)
  edge : ∀ edge ∈ graph.edges, ∃ send, along program edge = .ok send ∧
    send (facts.output edge.source) ≤ facts.input edge.target
  boundary : ∀ method ∈ program.entries, ∃ fact, Constants.boundaryFact program method = .ok fact ∧
    fact ≤ facts.input (.entry method)
  /-- Entries and exits hand on what flows in. -/
  through : ∀ node ∈ graph.nodes, node.site? = none → facts.output node = facts.input node
  call : ∀ site call, Node.ofSite site ∈ graph.nodes →
    program.getStmt site = .ok (.invoke call) →
      facts.output (.ofSite site) = facts.input (.ofSite site)
  fieldLoad : ∀ site lhs base field, Node.ofSite site ∈ graph.nodes →
    program.getStmt site = .ok (.loadField lhs base field) → program.holdsInt lhs = true →
      ∃ value, IsLUB (storedInField program result graph facts base field) value ∧
        facts.output (.ofSite site) = (facts.input (.ofSite site)).update lhs value
  arrayLoad : ∀ site lhs base index, Node.ofSite site ∈ graph.nodes →
    program.getStmt site = .ok (.loadArray lhs base index) → program.holdsInt lhs = true →
      ∃ value, IsLUB (storedInSlot program result graph facts base
          ((facts.input (.ofSite site)).get index)) value ∧
        facts.output (.ofSite site) = (facts.input (.ofSite site)).update lhs value
  /-- All other statements do what they do within their method. -/
  other : ∀ site stmt, Node.ofSite site ∈ graph.nodes → program.getStmt site = .ok stmt →
    stmt.isCall = false →
    (∀ lhs base field, stmt = .loadField lhs base field → program.holdsInt lhs = false) →
    (∀ lhs base index, stmt = .loadArray lhs base index → program.holdsInt lhs = false) →
      ∃ f, Constants.transfer program (.ofSite site) = .ok f ∧
        facts.output (.ofSite site) = f (facts.input (.ofSite site))

end Stored

variable {program : Program} {config : Config.Dataflow} {policy : PointsTo.Policy}
  {result : PointsTo.Result} {graph : Supergraph} {aliases : HeapAliases} {facts : Facts Fact}

theorem build_of_prepare (h : prepare program config result = .ok (graph, aliases)) :
    Supergraph.build program result.callGraph = .ok graph := by
  obtain ⟨found, hfound, hrest⟩ := bind_eq_ok_iff.mp h
  dsimp only at hrest
  split at hrest
  all_goals
    obtain ⟨aliases', -, hpure⟩ := bind_eq_ok_iff.mp hrest
    cases hpure
    exact hfound

/-- Exactly the nodes of the supergraph have facts. -/
theorem isSome_after_iff (hanalyze : analyze program config result = .ok facts)
    (hbuilt : Built program result.callGraph graph) {node : Node} :
    (facts.after.get? node).isSome ↔ node ∈ graph.nodes := by
  obtain ⟨⟨found, aliases⟩, hprepare, hanalyze⟩ := bind_eq_ok_iff.mp hanalyze
  obtain rfl : found = graph := by
    have hfound := build_of_prepare hprepare
    rw [hbuilt.build_eq] at hfound
    exact (Except.ok.inj hfound).symm
  obtain ⟨progress, hsolve, hpure⟩ := bind_eq_ok_iff.mp hanalyze
  cases hpure
  obtain ⟨problem, hproblem, hpure⟩ := bind_eq_ok_iff.mp hsolve
  cases hpure
  have hrepresents := represents_of_problem hproblem
  have hboundary : ∀ entry ∈ problem.boundary, entry.1 ∈ problem.nodes := by
    intro entry hentry
    obtain ⟨method, -, hmethod, hnode, -⟩ := hrepresents.mem_boundary_iff.mp hentry
    rw [hbuilt.methods_eq] at hmethod
    obtain ⟨method', hmethod'⟩ := hbuilt.exists_getMethod hmethod
    rw [hrepresents.nodes, hnode]
    exact hbuilt.mem_nodes_iff.mpr ⟨hmethod, method', hmethod', trivial⟩
  rw [← hrepresents.nodes]
  exact (Interprocedural.Problem.confined_solve hboundary _).after node

section Loads

variable {site store : Site} {lhs : VarId}

theorem Analyzed.mem_methods (h : Analyzed program config policy result graph aliases facts)
    (hsite : Node.ofSite site ∈ graph.nodes) : site.method ∈ graph.methods := by
  rw [h.built.methods_eq]
  exact (h.built.ofSite_mem_nodes_iff.mp hsite).1

/-- The stores that a load of a field looks at, as far as they are in the supergraph, are
those that may go to its place. -/
theorem Analyzed.mem_fieldStores_iff
    (h : Analyzed program config policy result graph aliases facts)
    (haware : config.aliasAware = true) (hsite : Node.ofSite site ∈ graph.nodes)
    {base : Option VarId} {field : FieldId}
    (hload : program.getStmt site = .ok (.loadField lhs base field))
    (hstore : Node.ofSite store ∈ graph.nodes) :
    store ∈ fieldStores program aliases site base field ↔ ∃ base' rhs,
      program.getStmt store = .ok (.storeField base' field rhs) ∧ SamePlace result base base' := by
  cases base with
  | none =>
    have hlt := PointsTo.field_lt_of_loadField hload
    simp only [fieldStores, Option.isNone_none, if_true, Program.mem_staticStores_iff hlt]
    constructor
    · rintro ⟨stmt, hstmt, hfield⟩
      cases stmt with
      | storeField base' field' rhs =>
        cases base' with
        | none =>
          cases hfield
          exact ⟨none, rhs, hstmt, trivial⟩
        | some base' => cases hfield
      | _ => cases hfield
    · rintro ⟨base', rhs, hstmt, hplace⟩
      cases base' with
      | none => exact ⟨_, hstmt, rfl⟩
      | some base' => exact hplace.elim
  | some base =>
    have hpairs := pairs_of_build h.built (h.meets haware)
    simp only [fieldStores, Option.isNone_some, Bool.false_eq_true, if_false,
      hpairs.fieldLoad site lhs base field hload, h.mem_methods hsite, h.mem_methods hstore,
      true_and]
    constructor
    · rintro ⟨base', rhs, hstmt, hmeet⟩
      exact ⟨some base', rhs, hstmt, hmeet⟩
    · rintro ⟨base', rhs, hstmt, hplace⟩
      cases base' with
      | none => exact hplace.elim
      | some base' => exact ⟨base', rhs, hstmt, hplace⟩

/-- The stores that a load of an array looks at, as far as they are in the supergraph, are
those into arrays that it may share. -/
theorem Analyzed.mem_slotStores_iff
    (h : Analyzed program config policy result graph aliases facts)
    (haware : config.aliasAware = true) (hsite : Node.ofSite site ∈ graph.nodes)
    {base index : VarId} (hload : program.getStmt site = .ok (.loadArray lhs base index))
    (hstore : Node.ofSite store ∈ graph.nodes) :
    store ∈ aliases.partnersOf site ↔ ∃ base' slot rhs,
      program.getStmt store = .ok (.storeArray base' slot rhs) ∧ MayMeet result base base' := by
  have hpairs := pairs_of_build h.built (h.meets haware)
  rw [hpairs.arrayLoad site lhs base index hload]
  simp only [h.mem_methods hsite, h.mem_methods hstore, true_and]

/-- A store outside the supergraph gives nothing to a load. -/
theorem mem_nodes_of_storedValue (hafter : ∀ node, (facts.after.get? node).isSome ↔
    node ∈ graph.nodes) {position : Option Value} {ref : StoreRef}
    (hvalue : storedValue facts position ref ≠ .undefined) : ref.node ∈ graph.nodes := by
  rw [← hafter]
  unfold storedValue at hvalue
  cases hfact : facts.after.get? ref.node with
  | none => simp [hfact] at hvalue
  | some fact => rfl

/-- A load of a field has the least value above those of the stores that may go to its
place. -/
theorem Analyzed.isLUB_field (h : Analyzed program config policy result graph aliases facts)
    (hafter : ∀ node, (facts.after.get? node).isSome ↔ node ∈ graph.nodes)
    (haware : config.aliasAware = true) (hsite : Node.ofSite site ∈ graph.nodes)
    {base : Option VarId} {field : FieldId}
    (hload : program.getStmt site = .ok (.loadField lhs base field)) {refs : List StoreRef}
    (hrefs : storeRefs program (fieldStores program aliases site base field) = .ok refs) :
    IsLUB (storedInField program result graph facts base field) (loadedValue facts none refs) := by
  refine Value.isLUB_of_iff (Value.isLUB_foldl_meet (storedValue facts none) refs) fun v hv => ?_
  constructor
  · rintro ⟨ref, href, rfl⟩
    have hnode := mem_nodes_of_storedValue hafter hv
    obtain ⟨store, hstore, stmt, hstmt, href⟩ := (mem_storeRefs_iff hrefs).mp href
    rw [node_of_storeRef? href] at hnode
    obtain ⟨base', rhs, hstmt', hplace⟩ :=
      (h.mem_fieldStores_iff haware hsite hload hnode).mp hstore
    cases hstmt.symm.trans hstmt'
    cases href
    exact ⟨store, base', rhs, hnode, hstmt, hplace, storedValue_eq facts none _⟩
  · rintro ⟨store, base', rhs, hnode, hstmt, hplace, rfl⟩
    have hstore := (h.mem_fieldStores_iff haware hsite hload hnode).mpr
      ⟨base', rhs, hstmt, hplace⟩
    refine ⟨⟨.ofSite store, none, rhs⟩,
      (mem_storeRefs_iff hrefs).mpr ⟨store, hstore, _, hstmt, rfl⟩, ?_⟩
    rw [storedValue_eq]

/-- A load of an array has the least value above those of the stores that may go to its
place at its index. -/
theorem Analyzed.isLUB_slot (h : Analyzed program config policy result graph aliases facts)
    (hafter : ∀ node, (facts.after.get? node).isSome ↔ node ∈ graph.nodes)
    (haware : config.aliasAware = true) (hsite : Node.ofSite site ∈ graph.nodes)
    {base index : VarId} (hload : program.getStmt site = .ok (.loadArray lhs base index))
    {refs : List StoreRef} (hrefs : storeRefs program (aliases.partnersOf site) = .ok refs)
    (position : Value) :
    IsLUB (storedInSlot program result graph facts base position)
      (loadedValue facts (some position) refs) := by
  refine Value.isLUB_of_iff (Value.isLUB_foldl_meet (storedValue facts (some position)) refs)
    fun v hv => ?_
  constructor
  · rintro ⟨ref, href, rfl⟩
    have hnode := mem_nodes_of_storedValue hafter hv
    obtain ⟨store, hstore, stmt, hstmt, href⟩ := (mem_storeRefs_iff hrefs).mp href
    rw [node_of_storeRef? href] at hnode
    obtain ⟨base', slot, rhs, hstmt', hmeet⟩ :=
      (h.mem_slotStores_iff haware hsite hload hnode).mp hstore
    cases hstmt.symm.trans hstmt'
    cases href
    rw [storedValue_eq] at hv ⊢
    dsimp only at hv ⊢
    split at hv
    · next hmay =>
      rw [if_pos hmay]
      exact ⟨store, base', slot, rhs, hnode, hstmt, hmeet, hmay, rfl⟩
    · exact absurd rfl hv
  · rintro ⟨store, base', slot, rhs, hnode, hstmt, hmeet, hmay, rfl⟩
    have hstore := (h.mem_slotStores_iff haware hsite hload hnode).mpr
      ⟨base', slot, rhs, hstmt, hmeet⟩
    refine ⟨⟨.ofSite store, some slot, rhs⟩,
      (mem_storeRefs_iff hrefs).mpr ⟨store, hstore, _, hstmt, rfl⟩, ?_⟩
    rw [storedValue_eq]
    exact (if_pos hmay).symm

end Loads

/-- The final facts of an analysis that looks at aliases are consistent. -/
theorem Analyzed.consistent (h : Analyzed program config policy result graph aliases facts)
    (hafter : ∀ node, (facts.after.get? node).isSome ↔ node ∈ graph.nodes)
    (haware : config.aliasAware = true) : Consistent program result graph facts where
  given node hnode := by
    refine ⟨h.solved.before node hnode, ?_⟩
    obtain ⟨fact, hfact⟩ := Option.isSome_iff_exists.mp ((hafter node).mpr hnode)
    simp [Facts.output, hfact]
  edge edge hedge := by
    have hedge := h.built.mem_edges_iff.mp hedge
    obtain ⟨send, hsend, -⟩ := exists_along h.built hedge
    exact ⟨send, hsend, h.solved.flows edge send hedge hsend⟩
  boundary method hmethod := by
    have hentry : method ∈ result.entries := h.complete.entries ▸ hmethod
    obtain ⟨found, hfound⟩ := Program.exists_getMethod (program.inRange.entry method hmethod)
    obtain ⟨fact, hfact, -⟩ := Constants.exists_boundaryFact hfound
    exact ⟨fact, hfact, h.solved.boundary method
      (PointsTo.Result.mem_entries_callGraph_iff.mpr hentry)
      (PointsTo.Result.mem_reachable_callGraph_iff.mpr (.inl hentry)) fact hfact⟩
  through node hnode hsite := h.output_through hnode hsite
  call site call hnode hstmt :=
    h.output_call (h.built.ofSite_mem_nodes_iff.mp hnode).1 hstmt
  fieldLoad site lhs base field hnode hstmt hlhs := by
    obtain ⟨f, heffect, houtput⟩ :=
      h.exists_effect_stmt (h.built.ofSite_mem_nodes_iff.mp hnode).1 hstmt
    cases heffect with
    | plain _ hload =>
      have hfalse : program.holdsInt lhs = false := hload haware rfl
      rw [hlhs] at hfalse
      cases hfalse
    | field _ _ hrefs => exact ⟨_, h.isLUB_field hafter haware hnode hstmt hrefs, houtput⟩
  arrayLoad site lhs base index hnode hstmt hlhs := by
    obtain ⟨f, heffect, houtput⟩ :=
      h.exists_effect_stmt (h.built.ofSite_mem_nodes_iff.mp hnode).1 hstmt
    cases heffect with
    | plain _ hload =>
      have hfalse : program.holdsInt lhs = false := hload haware rfl
      rw [hlhs] at hfalse
      cases hfalse
    | slot _ _ hrefs => exact ⟨_, h.isLUB_slot hafter haware hnode hstmt hrefs _, houtput⟩
  other site stmt hnode hstmt hplain hfield hslot := by
    obtain ⟨f, heffect, houtput⟩ :=
      h.exists_effect_stmt (h.built.ofSite_mem_nodes_iff.mp hnode).1 hstmt
    refine ⟨_, Constants.transfer_ofSite hstmt, ?_⟩
    cases heffect with
    | call => cases hplain
    | plain => exact houtput
    | field _ hlhs =>
      rw [hfield _ _ _ rfl] at hlhs
      cases hlhs
    | slot _ hlhs =>
      rw [hslot _ _ _ rfl] at hlhs
      cases hlhs

/-- With any result of the points-to analysis of a program, constant propagation that looks
at aliases comes to its end, and its final facts are consistent. -/
theorem analyze_consistent (program : Program) {points : Config.PointsTo}
    {result : PointsTo.Result} (hresult : PointsTo.analyze program points = .ok result)
    {config : Config.Dataflow} (haware : config.aliasAware = true) :
    ∃ graph facts, Supergraph.build program result.callGraph = .ok graph ∧
      analyze program config result = .ok facts ∧ Consistent program result graph facts := by
  have hcomplete := PointsTo.complete_of_analyze hresult
  obtain ⟨graph, aliases, facts, hbuilt, haliases, hpaired, hanalyze, hsolved⟩ :=
    exists_analyze config hcomplete.reaches hcomplete.entries
  have h : Analyzed program config (.ofConfig points) result graph aliases facts :=
    ⟨hcomplete, hbuilt, haliases, hpaired, hsolved⟩
  exact ⟨graph, facts, hbuilt.build_eq, hanalyze,
    h.consistent (fun _ => isSome_after_iff hanalyze hbuilt) haware⟩

/-- The load of `counterProgram` gets the least value above those that are stored in the
field. -/
theorem analyze_consistent_counter : ∃ result graph facts value,
    PointsTo.analyze counterProgram .standard = .ok result ∧
      analyze counterProgram .standard result = .ok facts ∧
      IsLUB (storedInField counterProgram result graph facts (some ⟨0⟩) ⟨0⟩) value ∧
      facts.output (.stmt ⟨0⟩ 3) = (facts.input (.stmt ⟨0⟩ 3)).update ⟨2⟩ value := by
  obtain ⟨final, hsolve, -⟩ := PointsTo.State.exists_solve counterProgram (.ofConfig .standard)
  have hresult : PointsTo.analyze counterProgram .standard =
      .ok ⟨final, counterProgram.entries⟩ := by
    simp [PointsTo.analyze, hsolve]
  have haware : Config.Dataflow.standard.aliasAware = true := rfl
  obtain ⟨graph, facts, hgraph, hanalyze, hconsistent⟩ :=
    analyze_consistent counterProgram hresult haware
  have hload : counterProgram.getStmt ⟨⟨0⟩, 3⟩ = .ok (.loadField ⟨2⟩ (some ⟨0⟩) ⟨0⟩) := rfl
  have hentry : (⟨0⟩ : MethodId) ∈ counterProgram.entries := by decide
  have hnode : Node.ofSite ⟨⟨0⟩, 3⟩ ∈ graph.nodes :=
    (Supergraph.built_of_build hgraph).ofSite_mem_nodes_iff.mpr
      ⟨PointsTo.Result.mem_reachable_callGraph_iff.mpr (.inl hentry), _, hload⟩
  obtain ⟨value, hvalue, houtput⟩ := hconsistent.fieldLoad _ _ _ _ hnode hload rfl
  exact ⟨_, graph, facts, value, hresult, hanalyze, hvalue, houtput⟩

end InterConstants

end ObjectFlow.Dataflow
