import ObjectFlow.Proofs.Dataflow.Elimination

/-!
# Constants on every path

Constant propagation does not look at conditions.  Its facts hold on every path of the
control-flow graph, also on those that no run takes.  On a path that takes any branch at will,
numbers are calculated as in a run: parameters start with any numbers, what is loaded or
returned is any value, and the path ends where a number is needed and there is none.
-/

namespace ObjectFlow

namespace Execution

variable {α : Type} {program : Program} {method : Method}

/-- Where a path through a method comes to, and with which variables.  It may take any branch,
whatever the condition says. -/
inductive Wanders (program : Program) (method : Method) : Point → Env (Datum α) → Prop where
  | entry {start : Moment α} (hstart : Starts program method start) :
    Wanders program method .entry start.vars
  | first {start : Moment α} (hstart : Starts program method start) :
    Wanders program method (pointAt method.stmts.size 0) start.vars
  | step {index : Nat} {stmt : Stmt} {next : Point} {vars vars' : Env (Datum α)}
    {value : Datum α} (h : Wanders program method (.stmt index) vars)
    (hstmt : method.stmts[index]? = some stmt)
    (hwritten : written? program vars value stmt = some vars')
    (hleads : Leads method.stmts.size index stmt next) : Wanders program method next vars'

theorem Wanders.inside {point : Point} {vars : Env (Datum α)}
    (h : Wanders program method point vars) : Node.Inside method.stmts.size point := by
  cases h with
  | entry => trivial
  | first => exact inside_pointAt _ _
  | step _ hstmt _ hleads => exact hleads.inside hstmt

end Execution

namespace Dataflow.Constants

open Execution

variable {α : Type} {program : Program} {id : MethodId} {method : Method} {facts : Facts Fact}

/-- Wherever a path comes to, the fact there covers its numbers. -/
theorem Solves.covers (h : Solves program id method facts)
    (hentry : ∀ param ∈ method.params, program.holdsInt param = true →
      (facts.input (.entry id)).get param = .nac)
    {point : Point} {vars : Env (Datum α)} (hpath : Wanders program method point vars) :
    (facts.input ⟨id, point⟩).Covers (supplied program vars) := by
  induction hpath with
  | entry hstart => exact DeadCode.covers_start hentry hstart
  | first hstart =>
    rw [← nodeAt_eq]
    exact DeadCode.covers_start h.params hstart
  | step _ hstmt hwritten hleads ih =>
    exact (DeadCode.covers_written ih hwritten).mono (h.flows hstmt _ (hleads.mem_succs hstmt))

/-- The facts stand before all nodes, and where the method is entered its parameters may have
any value. -/
theorem exists_analyze_entered (hmethod : program.getMethod id = .ok method) :
    ∃ facts, analyze program id = .ok facts ∧ Solves program id method facts ∧
      (∀ node ∈ (Cfg.ofStmts id method.stmts).nodes,
        facts.before.get? node = some (facts.input node)) ∧
      ∀ param ∈ method.params, program.holdsInt param = true →
        (facts.input (.entry id)).get param = .nac := by
  obtain ⟨facts, hanalyze, hsolves⟩ := exists_analyze hmethod
  obtain ⟨equations, rounds, hrepresents, -, hsolution, hprogress⟩ := exists_solution hmethod
  generalize equations.solve rounds = progress at hsolution hprogress
  obtain rfl := Except.ok.inj (hanalyze.symm.trans hprogress)
  have hinput : Facts.input ⟨progress.input, progress.output⟩ = equations.inputOf progress := by
    funext node
    rw [Facts.input, Problem.inputOf, hrepresents.initial]
  refine ⟨_, hanalyze, hsolves, fun node hnode => ?_, ?_⟩
  · rw [hinput]
    exact hsolution.input node (hrepresents.nodes ▸ hnode)
  · obtain ⟨fact, hfact, -, hnac⟩ := exists_boundaryFact hmethod
    obtain rfl := Except.ok.inj (hrepresents.boundaryFact.symm.trans hfact)
    have hentry : equations.inputOf progress (.entry id) = equations.boundaryFact := by
      rw [← hsolution.boundary_input, hrepresents.boundary]
      rfl
    rw [hinput, hentry]
    exact hnac

/-- Constant propagation of a method is sound on every path.  It gives a fact before each node,
and when a path comes to a node with a number in a variable for small numbers, the fact there has
that number for the variable, or says that it is not a constant. -/
theorem sound_on_every_path (program : Program) {id : MethodId} {method : Method}
    (hmethod : program.getMethod id = .ok method) :
    ∃ facts, analyze program id = .ok facts ∧
      ∀ {α : Type} {point : Point} {vars : Env (Datum α)}, Wanders program method point vars →
        ∃ fact, facts.before.get? ⟨id, point⟩ = some fact ∧
          ∀ v c, program.holdsInt v = true → vars v = some (.number c) →
            fact.get v = .constant c ∨ fact.get v = .nac := by
  obtain ⟨facts, hanalyze, hsolves, hbefore, hentry⟩ := exists_analyze_entered hmethod
  refine ⟨facts, hanalyze, fun {α point vars} hpath => ?_⟩
  have hnode : ⟨id, point⟩ ∈ (Cfg.ofStmts id method.stmts).nodes :=
    Cfg.mem_nodes_iff.mpr ⟨rfl, hpath.inside⟩
  refine ⟨_, hbefore _ hnode, fun v c hint hv => ?_⟩
  have hsupplied : supplied program vars v = some c := by
    simp [supplied, carried, hint, hv, Datum.number?]
  have hallows := hsolves.covers hentry hpath v
  rw [hsupplied] at hallows
  exact Value.allows_some_iff.mp hallows

open DeadCode (gateListing gateProgram gateStart)

/-- A path of `gateProgram` goes on behind the branch that every run takes.  There the variable of
the branch still holds seven. -/
theorem sound_on_every_path_gate : ∃ facts fact vars, analyze gateProgram ⟨0⟩ = .ok facts ∧
    @Wanders Unit gateProgram gateListing.methods[0] (.stmt 2) vars ∧
      vars ⟨1⟩ = some (.number 7) ∧ facts.before.get? (.stmt ⟨0⟩ 2) = some fact ∧
      (fact.get ⟨1⟩ = .constant 7 ∨ fact.get ⟨1⟩ = .nac) := by
  have hmethod : gateProgram.getMethod ⟨0⟩ = .ok gateListing.methods[0] := rfl
  have hstart : Starts gateProgram gateListing.methods[0] gateStart := by
    constructor
    · rfl
    · intro v hv _
      exact ⟨5, if_pos (List.mem_singleton.mp hv)⟩
    · intro v hv _
      exact if_neg fun heq => hv (List.mem_singleton.mpr heq)
  let vars : Env (Datum Unit) := Function.update gateStart.vars ⟨1⟩ (some (.number 7))
  have hassign : written? gateProgram gateStart.vars (.other ()) (.assign ⟨1⟩ (.literal 7)) =
    some vars := rfl
  have hbranch : written? gateProgram vars (.other ()) (.branch (.var ⟨1⟩) 4) = some vars := rfl
  have hpath : Wanders gateProgram gateListing.methods[0] (.stmt 2) vars :=
    .step (.step (.first hstart) rfl hassign rfl) rfl hbranch (.inr rfl)
  obtain ⟨facts, hfacts, hsound⟩ := sound_on_every_path gateProgram hmethod
  obtain ⟨fact, hfact, hvalue⟩ := hsound hpath
  exact ⟨facts, fact, vars, hfacts, hpath, rfl, hfact, hvalue ⟨1⟩ 7 rfl rfl⟩

end Dataflow.Constants

end ObjectFlow
