import ObjectFlow.Proofs.Dataflow.Consistency
import ObjectFlow.Proofs.Dataflow.Keeping
import ObjectFlow.Proofs.Dataflow.MethodFacts

/-!
# Variables with an entry

Constant propagation is about variables for small numbers.  Wherever it enters a value, at the
start of a method, after a statement and when a call returns, it looks at the type of the variable
first, and other variables get no entry.  One place does not look: a call enters the values of its
arguments for its parameters, whatever their types are.  A parameter of another type then has an
entry when its argument has one, and hands it on when it is an argument itself.  Nothing else gets
an entry that should not.
-/

namespace ObjectFlow.Dataflow

/-- A variable has an entry in a fact before or after a node. -/
def Facts.Lists (facts : Facts Fact) (node : Node) (v : VarId) : Prop :=
  ∃ fact value, (facts.before.get? node = some fact ∨ facts.after.get? node = some fact) ∧
    (v, value) ∈ fact.entries

/-- Variables with an entry have a value. -/
theorem Facts.Lists.of_only {facts : Facts Fact} {node : Node} {v : VarId}
    (h : facts.Lists node v) (set : VarId → Prop)
    (hinput : (facts.input node).Canonical ∧ (facts.input node).Only set)
    (houtput : (facts.output node).Canonical ∧ (facts.output node).Only set) : set v := by
  obtain ⟨fact, value, hfact, hentry⟩ := h
  have hcase : fact.Canonical ∧ fact.Only set := by
    rcases hfact with hfact | hfact
    · simpa [Facts.input, hfact] using hinput
    · simpa [Facts.output, hfact] using houtput
  obtain ⟨hget, hdefined⟩ := hcase.1.mem_iff.mp hentry
  exact hcase.2 v (hget ▸ hdefined)

/-- In the facts of one method only variables for small numbers have an entry. -/
theorem Constants.exists_analyze_lists {program : Program} {id : MethodId} {method : Method}
    (hmethod : program.getMethod id = .ok method) :
    ∃ facts, analyze program id = .ok facts ∧
      ∀ node v, facts.Lists node v → program.holdsInt v = true := by
  obtain ⟨equations, rounds, hrepresents, -, hsolution, hanalyze⟩ := exists_solution hmethod
  refine ⟨_, hanalyze, fun node v hlists => hlists.of_only (program.holdsInt · = true) ?_ ?_⟩
  · obtain ⟨htidy, hnumeric⟩ := hsolution.input_good node
    rw [Problem.inputOf, hrepresents.initial] at htidy hnumeric
    exact ⟨htidy.toCanonical, hnumeric⟩
  · obtain ⟨htidy, hnumeric⟩ := hsolution.output_good node
    rw [Problem.outputOf, hrepresents.initial] at htidy hnumeric
    exact ⟨htidy.toCanonical, hnumeric⟩

namespace InterConstants

open Supergraph (Built IsEdge)

variable {program : Program} {config : Config.Dataflow} {calls : CallGraph Site MethodId}

/-- The variables that may have an entry in a method: those for small numbers, and the parameters
to which a call binds an argument that may have an entry in its own method. -/
inductive Carries (program : Program) (calls : CallGraph Site MethodId) :
    MethodId → VarId → Prop where
  | number {method : MethodId} {v : VarId} (hint : program.holdsInt v = true) :
    Carries program calls method v
  | bound {site : Site} {call : Call} {callee : MethodId} {found : Method} {arg param : VarId}
    (hstmt : program.getStmt site = .ok (.invoke call)) (hcallee : callee ∈ calls.calleesOf site)
    (hfound : program.getMethod callee = .ok found)
    (hpair : (arg, param) ∈ call.args.zip found.params)
    (harg : Carries program calls site.method arg) : Carries program calls callee param

/-- Calls bind small numbers to parameters for small numbers only. -/
def BindsNumbers (program : Program) (calls : CallGraph Site MethodId) : Prop :=
  ∀ site call callee found, program.getStmt site = .ok (.invoke call) →
    callee ∈ calls.calleesOf site → program.getMethod callee = .ok found →
      ∀ pair ∈ call.args.zip found.params, program.holdsInt pair.1 = true →
        program.holdsInt pair.2 = true

theorem Carries.holdsInt {method : MethodId} {v : VarId} (h : Carries program calls method v)
    (hbinds : BindsNumbers program calls) : program.holdsInt v = true := by
  induction h with
  | number hint => exact hint
  | bound hstmt hcallee hfound hpair _ ih =>
    exact hbinds _ _ _ _ hstmt hcallee hfound _ hpair ih

section Edges

variable {graph : Supergraph} {edge : SuperEdge} {f : Fact → Fact} {fact : Fact}

/-- A parameter has a value only when its argument has one. -/
theorem only_boundFact {set : VarId → Prop} {args params : List VarId}
    (h : ∀ pair ∈ args.zip params, fact.get pair.1 ≠ .undefined → set pair.2) :
    (boundFact args params fact).Only set := by
  apply List.foldlRecOn (motive := Fact.Only set) _ _ Fact.only_empty
  intro bound hbound pair hpair
  exact hbound.update (h pair hpair)

theorem only_resultFact {set : VarId → Prop} (hset : ∀ v, program.holdsInt v = true → set v)
    (returned : List VarId) (result : Option VarId) :
    (resultFact program returned result fact).Only set := by
  unfold resultFact
  split
  · exact Fact.only_empty
  · split
    · next hint => exact Fact.only_empty.update fun _ => hset _ hint
    · exact Fact.only_empty

theorem only_keptFact {set : VarId → Prop} (h : fact.Only set) (result : Option VarId) :
    (keptFact result fact).Only set := by
  unfold keptFact
  split
  · exact h
  · exact h.remove _

/-- What an edge sends is about variables that may have an entry where it leads. -/
theorem only_along (hbuilt : Built program calls graph) (hedge : IsEdge program calls edge)
    (hf : along program edge = .ok f)
    (h : fact.Only (Carries program calls edge.source.method)) :
    (f fact).Only (Carries program calls edge.target.method) := by
  cases hedge with
  | @inner method found source target _ hfound hsuccs =>
    obtain ⟨hsource, htarget⟩ := Cfg.mem_nodes_of_mem_succs hsuccs
    have hsame : source.method = target.method :=
      (Cfg.mem_nodes_iff.mp hsource).1.trans (Cfg.mem_nodes_iff.mp htarget).1.symm
    simp only [hsame] at h
    rcases innerKind_ofStmts hfound hsuccs with hkind | ⟨site, call, rfl, hstmt, hkind⟩
    · rw [hkind] at hf
      cases hf
      exact h
    · rw [hkind, along_callToReturn hstmt] at hf
      cases hf
      exact only_keptFact h call.result
  | call _ hstmt hcallee hreachable =>
    obtain ⟨found, hfound⟩ := hbuilt.exists_getMethod hreachable
    rw [along_call hstmt hfound] at hf
    cases hf
    -- The parameter gets the value of the argument, whatever its type is.
    exact only_boundFact fun pair hpair hdefined =>
      .bound hstmt hcallee hfound hpair (h pair.1 hdefined)
  | ret _ hfound hstmt _ hreachable =>
    obtain ⟨callee, hcallee⟩ := hbuilt.exists_getMethod hreachable
    obtain ⟨returned, hreturned, -⟩ := Program.exists_returnVars (Program.lt_of_getMethod hcallee)
    have hsite := Program.getStmt_eq_ok_iff.mpr ⟨_, hfound, hstmt⟩
    rw [along_ret hsite hreturned] at hf
    cases hf
    exact only_resultFact (fun _ => .number) returned _

end Edges

/-- A node gives values only to variables for small numbers. -/
theorem NodeEffect.only {aliases : HeapAliases} {node : Node} {f : Facts Fact → Fact → Fact}
    {set : VarId → Prop} (h : NodeEffect program config aliases node f)
    (hset : ∀ v, program.holdsInt v = true → set v) {facts : Facts Fact} {fact : Fact}
    (hfact : fact.Only set) : (f facts fact).Only set := by
  cases h with
  | through => exact hfact
  | stmt hstmt heffect =>
    cases heffect with
    | call => exact hfact
    | plain => exact Constants.only_transferStmt hset hfact _
    | field _ hlhs => exact hfact.update fun _ => hset _ hlhs
    | slot _ hlhs => exact hfact.update fun _ => hset _ hlhs

/-- The equations enter nothing else. -/
theorem Represents.keeps_only {aliases : HeapAliases} {graph : Supergraph}
    {problem : Interprocedural.Problem Fact} {vars : Nat}
    (h : Represents program config aliases graph problem) (hbuilt : Built program calls graph)
    (hpaired : Paired program aliases) :
    problem.Keeps vars (fun node => Fact.Only (Carries program calls node.method))
      fun node => Fact.Only (Carries program calls node.method) where
  empty _ := ⟨Fact.only_empty, Fact.only_empty⟩
  boundary entry hentry := by
    obtain ⟨method, -, -, -, hfact⟩ := h.mem_boundary_iff.mp hentry
    have honly : entry.2.Only (Carries program calls entry.1.method) :=
      fun v hv => .number (Constants.numeric_boundaryFact hfact v hv)
    exact ⟨honly, honly⟩
  along node edge hedge out fact htidy hout hfact := by
    obtain ⟨-, found, hfound, rfl, hsource, hf⟩ := (h.mem_inEdges_iff hbuilt).mp hedge
    rw [← hsource] at hout
    exact (only_along hbuilt hfound hf hout).meetInto htidy.toCanonical hfact
  transfer node _ facts fact _ hfact := by
    rcases h.nodeEffect hbuilt hpaired node with hid | heffect
    · rw [hid]
      exact hfact
    · exact heffect.only (fun _ => .number) hfact

theorem built_of_prepare {result : PointsTo.Result} {graph : Supergraph} {aliases : HeapAliases}
    (h : prepare program config result = .ok (graph, aliases)) :
    Built program result.callGraph graph ∧ Paired program aliases := by
  have hbuilt := Supergraph.built_of_build (build_of_prepare h)
  refine ⟨hbuilt, ?_⟩
  obtain ⟨found, hfound, hrest⟩ := bind_eq_ok_iff.mp h
  dsimp only at hrest
  split at hrest
  · obtain ⟨aliases', haliases, hpure⟩ := bind_eq_ok_iff.mp hrest
    cases hpure
    exact paired_of_build hbuilt haliases
  · obtain ⟨aliases', haliases, hpure⟩ := bind_eq_ok_iff.mp hrest
    cases hpure
    cases haliases
    exact paired_empty program

/-- Whatever points-to result constant propagation succeeds with, variables that carry nothing
get no entry. -/
theorem carries_of_lists {result : PointsTo.Result} {facts : Facts Fact}
    (hanalyze : analyze program config result = .ok facts) {node : Node} {v : VarId}
    (hlists : facts.Lists node v) : Carries program result.callGraph node.method v := by
  obtain ⟨⟨graph, aliases⟩, hprepare, hrest⟩ := bind_eq_ok_iff.mp hanalyze
  obtain ⟨hbuilt, hpaired⟩ := built_of_prepare hprepare
  obtain ⟨progress, hsolve, hpure⟩ := bind_eq_ok_iff.mp hrest
  cases hpure
  obtain ⟨problem, hproblem, hpure⟩ := bind_eq_ok_iff.mp hsolve
  cases hpure
  have hrepresents := represents_of_problem hproblem
  have hlawful := hrepresents.lawful hbuilt hpaired
  obtain ⟨_, -, ⟨-, hsolution⟩, -⟩ := hlawful.exists_ends (hrepresents.limit_lt hbuilt)
  obtain ⟨hinput, houtput⟩ := (hrepresents.keeps_only hbuilt hpaired).solve hlawful _ node
  exact hlists.of_only _ ⟨(hsolution.input_tidy node).toCanonical, hinput⟩
    ⟨(hsolution.output_tidy node).toCanonical, houtput⟩

/-- Which variables have an entry.  In the facts of one method all are for small numbers.  In the
facts of a whole program, which are found with every result of the points-to analysis, each is for
small numbers or is a parameter that takes over the entry of an argument; all are for small numbers
when calls bind such numbers only to parameters for them. -/
theorem entries_are_carried (program : Program) (config : Config.Dataflow) :
    (∀ id method, program.getMethod id = .ok method →
      ∃ facts, Constants.analyze program id = .ok facts ∧
        ∀ node v, facts.Lists node v → program.holdsInt v = true) ∧
    (∀ points result, PointsTo.analyze program points = .ok result →
      ∃ facts, analyze program config result = .ok facts) ∧
    ∀ result facts, analyze program config result = .ok facts →
      (∀ node v, facts.Lists node v → Carries program result.callGraph node.method v) ∧
      (BindsNumbers program result.callGraph →
        ∀ node v, facts.Lists node v → program.holdsInt v = true) := by
  refine ⟨fun id method hmethod => Constants.exists_analyze_lists hmethod, ?_, ?_⟩
  · intro points result hresult
    have hcomplete := PointsTo.complete_of_analyze hresult
    obtain ⟨_, _, facts, -, -, -, hanalyze, -⟩ :=
      exists_analyze config hcomplete.reaches hcomplete.entries
    exact ⟨facts, hanalyze⟩
  · intro result facts hanalyze
    refine ⟨fun node v hlists => carries_of_lists hanalyze hlists, fun hbinds node v hlists => ?_⟩
    exact (carries_of_lists hanalyze hlists).holdsInt hbinds

/-- A program that calls a method for a wide number with a small one. -/
def widenListing : Listing where
  classes := #[{ id := ⟨0⟩, name := "Widen", superClass := none, interfaces := [],
                 isInterface := false, isAbstract := false, methods := [⟨0⟩, ⟨1⟩] }]
  methods := #[
    { id := ⟨0⟩, name := "main", declaringClass := ⟨0⟩, subsignature := "main()", isStatic := true,
      isAbstract := false, this := none, params := [],
      stmts := #[.assign ⟨0⟩ (.literal 7),
        .invoke ⟨.static, ⟨⟨0⟩, "keep(long)"⟩, none, [⟨0⟩], none⟩] },
    { id := ⟨1⟩, name := "keep", declaringClass := ⟨0⟩, subsignature := "keep(long)",
      isStatic := true, isAbstract := false, this := none, params := [⟨1⟩], stmts := #[.nop] }]
  fields := #[]
  vars := #[⟨⟨0⟩, "n", .int, ⟨0⟩⟩, ⟨⟨1⟩, "wide", .long, ⟨1⟩⟩]
  entries := [⟨0⟩]

/-- The program of `widenListing`. -/
def widenProgram : Program where
  listing := widenListing
  sound := by decide
  index := Index.ofListing widenListing
  index_eq := rfl

/-- The wide parameter has an entry where its method is entered. -/
theorem exists_lists_widen : ∃ result facts,
    PointsTo.analyze widenProgram .standard = .ok result ∧
      analyze widenProgram .standard result = .ok facts ∧ facts.Lists (.entry ⟨1⟩) ⟨1⟩ := by
  have hentry : (do
      let result ← PointsTo.analyze widenProgram .standard
      let facts ← analyze widenProgram .standard result
      return (facts.before.get? (.entry ⟨1⟩)).map Fact.entries).toOption =
        some (some [(⟨1⟩, .constant 7)]) := by
    decide +kernel
  cases hresult : PointsTo.analyze widenProgram .standard with
  | error fault =>
    rw [hresult] at hentry
    cases hentry
  | ok result =>
    cases hfacts : analyze widenProgram .standard result with
    | error fault =>
      rw [hresult, ok_bind, hfacts] at hentry
      cases hentry
    | ok facts =>
      rw [hresult, ok_bind, hfacts, ok_bind] at hentry
      obtain ⟨fact, hfact, hentries⟩ := Option.map_eq_some_iff.mp (Option.some.inj hentry)
      exact ⟨result, facts, rfl, hfacts, fact, .constant 7, .inl hfact, by simp [hentries]⟩

/-- What the wide parameter has, it has from the argument of the call. -/
theorem entries_are_carried_widen : ∃ result facts,
    PointsTo.analyze widenProgram .standard = .ok result ∧
      analyze widenProgram .standard result = .ok facts ∧ facts.Lists (.entry ⟨1⟩) ⟨1⟩ ∧
      Carries widenProgram result.callGraph ⟨1⟩ ⟨1⟩ := by
  obtain ⟨result, facts, hresult, hfacts, hlists⟩ := exists_lists_widen
  obtain ⟨-, -, hentries⟩ := entries_are_carried widenProgram .standard
  exact ⟨result, facts, hresult, hfacts, hlists, (hentries result facts hfacts).1 _ _ hlists⟩

/-- A variable that is not for small numbers has an entry. -/
theorem entries_not_numeric_widen : ∃ result facts node v,
    PointsTo.analyze widenProgram .standard = .ok result ∧
      analyze widenProgram .standard result = .ok facts ∧ facts.Lists node v ∧
      widenProgram.holdsInt v = false := by
  obtain ⟨result, facts, hresult, hfacts, hlists⟩ := exists_lists_widen
  exact ⟨result, facts, .entry ⟨1⟩, ⟨1⟩, hresult, hfacts, hlists, by decide⟩

end InterConstants

end ObjectFlow.Dataflow
