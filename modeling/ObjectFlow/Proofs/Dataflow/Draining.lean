import ObjectFlow.Proofs.Dataflow.InterConstants
import ObjectFlow.Proofs.Dataflow.MethodFacts
import ObjectFlow.Proofs.PointsTo.Soundness

/-!
# The dataflow solvers drain their queues

All solvers are run under a bound on their visits.  This module shows that the bound is never
what ends them.  A solver that visits nodes for as long as one waits comes to its end by itself,
and the facts of an analysis are those that it then holds.

What flows out of a node may go down again, as after a division whose divisor turns out to be
zero, and a store may have loads visited that feed it in turn.  What flows into a node only
grows.  The number of visits is bounded by how far that can go.
-/

namespace ObjectFlow.Dataflow

open Iteration (Ends)

variable {program : Program} {id : MethodId} {method : Method}

namespace Constants

/-- The solver of constant propagation for a method drains its queue. -/
theorem exists_drained (hmethod : program.getMethod id = .ok method) :
    ∃ equations count final, problem program (Cfg.ofStmts id method.stmts) = .ok equations ∧
      Ends equations.visit equations.start count final ∧ final.queue = [] ∧
      count ≤ equations.limit (scale program) ∧
      analyze program id = .ok ⟨final.input, final.output⟩ := by
  obtain ⟨equations, hequations, -, -, -, -, hdescribes⟩ := exists_problem hmethod
  obtain ⟨count, hends, ⟨hqueue, -⟩, hcount⟩ :=
    hdescribes.exists_ends hmethod (Nat.mul_le_mul_left 2 program.measured.vars)
  refine ⟨equations, count, _, hequations, hends, hqueue, hcount, ?_⟩
  rw [analyze, Cfg.build_of_getMethod hmethod, ok_bind, hequations, ok_bind, pure_eq_ok]

end Constants

namespace Liveness

/-- The solver of liveness for a method drains its queue. -/
theorem exists_drained (hmethod : program.getMethod id = .ok method) :
    ∃ equations count final, problem program (Cfg.ofStmts id method.stmts) = .ok equations ∧
      Ends equations.visit equations.start count final ∧ final.queue = [] ∧
      count ≤ equations.limit (scale program) ∧
      analyze program id = .ok ⟨final.output, final.input⟩ := by
  obtain ⟨equations, hequations, -, -, hdescribes⟩ := exists_problem hmethod
  have hlimit : program.listing.vars.size ≤ 2 * program.listing.size :=
    program.measured.vars.trans (Nat.le_mul_of_pos_left _ (by omega))
  obtain ⟨count, hends, ⟨hqueue, -⟩, hcount⟩ := hdescribes.exists_ends hmethod hlimit
  refine ⟨equations, count, _, hequations, hends, hqueue, hcount, ?_⟩
  rw [analyze, Cfg.build_of_getMethod hmethod, ok_bind, hequations, ok_bind, pure_eq_ok]

end Liveness

namespace InterConstants

/-- The solver of constant propagation for a program drains its queue. -/
theorem exists_drained {policy : PointsTo.Policy} {result : PointsTo.Result}
    (config : Config.Dataflow) (h : result.Complete program policy) :
    ∃ graph aliases equations count final,
      prepare program config result = .ok (graph, aliases) ∧
      problem program config aliases graph = .ok equations ∧
      Ends equations.visit equations.start count final ∧ final.queue = [] ∧
      count ≤ equations.limit program.listing.vars.size ∧
      analyze program config result = .ok final.facts := by
  obtain ⟨graph, aliases, hprepare, hbuilt, -, hpaired⟩ :=
    exists_prepare config h.reaches h.entries
  obtain ⟨equations, hequations⟩ := @exists_problem program config aliases _ _ hbuilt hpaired
  have hrepresents := represents_of_problem hequations
  obtain ⟨count, hends, ⟨hqueue, -⟩, hcount⟩ :=
    (hrepresents.lawful hbuilt hpaired).exists_ends (hrepresents.limit_lt hbuilt)
  refine ⟨graph, aliases, equations, count, _, hprepare, hequations, hends, hqueue, hcount, ?_⟩
  rw [analyze, hprepare, ok_bind]
  simp only [solve, hequations, ok_bind]
  rfl

end InterConstants

/-- The solvers of dataflow equations drain their queues.  For every method, constant
propagation and liveness come to their end by themselves, and so does constant propagation
through calls and the heap, with every result of the points-to analysis.  Each analysis gives
the facts with which its solver ends. -/
theorem solvers_drain (program : Program) :
    (∀ id method, program.getMethod id = .ok method →
      ∃ cfg, Cfg.build program id = .ok cfg ∧
        (∃ equations count final, Constants.problem program cfg = .ok equations ∧
          Ends equations.visit equations.start count final ∧ final.queue = [] ∧
          count ≤ equations.limit (Constants.scale program) ∧
          Constants.analyze program id = .ok ⟨final.input, final.output⟩) ∧
        ∃ equations count final, Liveness.problem program cfg = .ok equations ∧
          Ends equations.visit equations.start count final ∧ final.queue = [] ∧
          count ≤ equations.limit (Liveness.scale program) ∧
          Liveness.analyze program id = .ok ⟨final.output, final.input⟩) ∧
    ∀ points result, PointsTo.analyze program points = .ok result →
      ∀ config : Config.Dataflow, ∃ graph aliases equations count final,
        InterConstants.prepare program config result = .ok (graph, aliases) ∧
        InterConstants.problem program config aliases graph = .ok equations ∧
        Ends equations.visit equations.start count final ∧ final.queue = [] ∧
        count ≤ equations.limit program.listing.vars.size ∧
        InterConstants.analyze program config result = .ok final.facts := by
  constructor
  · intro id method hmethod
    exact ⟨_, Cfg.build_of_getMethod hmethod, Constants.exists_drained hmethod,
      Liveness.exists_drained hmethod⟩
  · intro points result hresult config
    exact InterConstants.exists_drained config (PointsTo.complete_of_analyze hresult)

/-- A method that divides what it loads, stores the quotient where it loaded, calls itself and
does all this again. -/
def churnListing : Listing where
  classes := #[{ id := ⟨0⟩, name := "Churn", superClass := none, interfaces := [],
                 isInterface := false, isAbstract := false, methods := [⟨0⟩] }]
  methods := #[
    { id := ⟨0⟩, name := "turn", declaringClass := ⟨0⟩, subsignature := "turn()", isStatic := true,
      isAbstract := false, this := none, params := [],
      stmts := #[.alloc ⟨0⟩ (.object ⟨0⟩), .assign ⟨1⟩ (.literal 0),
        .loadField ⟨2⟩ (some ⟨0⟩) ⟨0⟩, .assign ⟨1⟩ (.binary .div ⟨2⟩ ⟨1⟩),
        .storeField (some ⟨0⟩) ⟨0⟩ ⟨1⟩,
        .invoke { kind := .static, target := ⟨⟨0⟩, "turn()"⟩, base := none, args := [],
                  result := none },
        .jump 2] }]
  fields := #[⟨⟨0⟩, "rest", ⟨0⟩, .int, false⟩]
  vars := #[⟨⟨0⟩, "a", .object ⟨0⟩, ⟨0⟩⟩, ⟨⟨1⟩, "n", .int, ⟨0⟩⟩, ⟨⟨2⟩, "m", .int, ⟨0⟩⟩]
  entries := [⟨0⟩]

/-- The program of `churnListing`. -/
def churnProgram : Program where
  listing := churnListing
  sound := by decide
  index := Index.ofListing churnListing
  index_eq := rfl

/-- On `churnProgram` every solver drains its queue, whether or not loads follow stores. -/
theorem solvers_drain_churn :
    (∃ cfg equations count final, churnProgram.getMethod ⟨0⟩ = .ok churnListing.methods[0] ∧
      Cfg.build churnProgram ⟨0⟩ = .ok cfg ∧
      Constants.problem churnProgram cfg = .ok equations ∧
      Ends equations.visit equations.start count final ∧ final.queue = []) ∧
    ∃ result, PointsTo.analyze churnProgram .standard = .ok result ∧
      ∀ config, ∃ graph aliases equations count final,
        InterConstants.prepare churnProgram config result = .ok (graph, aliases) ∧
        InterConstants.problem churnProgram config aliases graph = .ok equations ∧
        Ends equations.visit equations.start count final ∧ final.queue = [] := by
  obtain ⟨hmethods, hprogram⟩ := solvers_drain churnProgram
  have hturn : churnProgram.getMethod ⟨0⟩ = .ok churnListing.methods[0] := rfl
  obtain ⟨cfg, hcfg, ⟨equations, count, final, hequations, hends, hqueue, -⟩, -⟩ :=
    hmethods ⟨0⟩ _ hturn
  refine ⟨⟨cfg, equations, count, final, hturn, hcfg, hequations, hends, hqueue⟩, ?_⟩
  obtain ⟨final, hsolve, -⟩ := PointsTo.State.exists_solve churnProgram (.ofConfig .standard)
  have hanalyze : PointsTo.analyze churnProgram .standard = .ok ⟨final, churnProgram.entries⟩ := by
    simp [PointsTo.analyze, hsolve]
  refine ⟨_, hanalyze, fun config => ?_⟩
  obtain ⟨graph, aliases, equations, count, final, hprepare, hequations, hends, hqueue, -⟩ :=
    hprogram .standard _ hanalyze config
  exact ⟨graph, aliases, equations, count, final, hprepare, hequations, hends, hqueue⟩

end ObjectFlow.Dataflow
