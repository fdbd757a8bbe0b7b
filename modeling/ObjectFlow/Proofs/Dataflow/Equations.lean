import Mathlib.Order.Bounds.Basic
import ObjectFlow.Proofs.Dataflow.Keeping
import ObjectFlow.Proofs.Dataflow.MethodFacts
import ObjectFlow.Proofs.Dataflow.Monotone

/-!
# The equations of constant propagation in one method

The solver takes what comes from the sources of a node into what came in before, and takes
nothing back.  When all transfers are monotone, that makes no difference: what flows out of a
node only grows, so that all that ever came in still comes in.  What flows into a node is then
exactly what its sources send, taken together.

Quotients are not monotone.  A value that a source has sent for a while, and sends no more
since its divisor is known to be zero, stays with the targets of that source.
-/

namespace ObjectFlow.Dataflow

namespace Problem

variable {φ : Type} [Preorder φ]

/-- Equations with monotone transfers, in which taking two facts together gives the least
fact above both. -/
structure Monotone (problem : Problem φ) (scale : Scale φ) : Prop where
  transfer : ∀ node ∈ problem.nodes, ∀ {a b}, a ≤ b →
    problem.transfer node a ≤ problem.transfer node b
  meet_le : ∀ {a b bound}, scale.Good a → a ≤ bound → b ≤ bound → problem.meet a b ≤ bound
  initial_le : ∀ fact, problem.initial ≤ fact

/-- Nothing has come into a node that its sources do not send any more, and what flows out of
a node is no more than the transfer of what flows in. -/
structure Grounded (problem : Problem φ) (progress : Progress φ) : Prop where
  input : ∀ node, node ≠ problem.boundary → ∀ bound,
    (∀ source ∈ problem.sources node, problem.outputOf progress source ≤ bound) →
      problem.inputOf progress node ≤ bound
  output : ∀ node, node ≠ problem.boundary →
    problem.outputOf progress node ≤ problem.transfer node (problem.inputOf progress node)

variable {problem : Problem φ} {scale : Scale φ} {progress : Progress φ} {node : Node}
  {rest : List Node}

theorem Monotone.grounded_start (h : problem.Monotone scale) :
    problem.Grounded problem.start := by
  have hinitial : ∀ node, node ≠ problem.boundary →
      problem.inputOf problem.start node = problem.initial := by
    intro node hne
    by_cases hnode : node ∈ problem.nodes <;> simp [inputOf, start, hne, hnode]
  constructor
  · intro node hne bound _
    rw [hinitial node hne]
    exact h.initial_le bound
  · intro node hne
    have hsame : problem.outputOf problem.start node = problem.inputOf problem.start node := rfl
    rw [hsame, hinitial node hne]
    exact h.initial_le _

/-- What comes in is below all that is above what came in before and what the sources send. -/
theorem Monotone.inflow_le (h : problem.Monotone scale)
    (horderly : problem.Orderly scale progress) {bound : φ}
    (hinput : problem.inputOf progress node ≤ bound)
    (hsources : ∀ source ∈ problem.sources node, problem.outputOf progress source ≤ bound) :
    problem.inflow progress node ≤ bound := by
  unfold inflow
  apply List.foldlRecOn (motive := (· ≤ bound)) _ _ hinput
  intro fact hfact source hsource
  have hsent := hsources source hsource
  cases hout : progress.output.get? source with
  | none => exact hfact
  | some out =>
    have hout' : problem.outputOf progress source = out := by simp [outputOf, hout]
    rw [hout'] at hsent
    exact h.meet_le (hout' ▸ horderly.output_good source) hsent hfact

variable [DecidableEq φ] {next : Progress φ}

/-- What flows out of a node only grows. -/
theorem Grounded.outputOf_le (h : problem.Grounded progress) (hmonotone : problem.Monotone scale)
    (hlawful : problem.Lawful scale) (horderly : problem.Orderly scale progress)
    (hvisits : problem.Visits progress next node rest) (hnode : node ∈ problem.nodes)
    (hne : node ≠ problem.boundary) (other : Node) :
    problem.outputOf progress other ≤ problem.outputOf next other := by
  rw [hvisits.outputOf]
  split
  · next hother =>
    obtain ⟨-, hgrows, -⟩ := hlawful.inflow horderly node
    calc problem.outputOf progress other
        ≤ problem.transfer node (problem.inputOf progress node) := hother ▸ h.output node hne
      _ ≤ problem.transfer node (problem.inflow progress node) :=
          hmonotone.transfer node hnode hgrows
  · exact le_refl _

/-- A visit keeps facts grounded. -/
theorem Grounded.visits (h : problem.Grounded progress) (hmonotone : problem.Monotone scale)
    (hlawful : problem.Lawful scale) (horderly : problem.Orderly scale progress)
    (hvisits : problem.Visits progress next node rest) (hnode : node ∈ problem.nodes)
    (hne : node ≠ problem.boundary) : problem.Grounded next := by
  have hgrows := h.outputOf_le hmonotone hlawful horderly hvisits hnode hne
  constructor
  · intro other hother bound hbound
    -- What the sources sent before the visit, they still send.
    have hbefore : ∀ source ∈ problem.sources other,
        problem.outputOf progress source ≤ bound :=
      fun source hsource => (hgrows source).trans (hbound source hsource)
    have hkept := h.input other hother bound hbefore
    rw [hvisits.inputOf]
    split
    · next heq =>
      subst heq
      exact hmonotone.inflow_le horderly hkept hbefore
    · exact hkept
  · intro other hother
    rw [hvisits.inputOf, hvisits.outputOf]
    split
    · next heq => rw [heq, outflow]
    · exact h.output other hother

/-- However many visits the solver makes, its facts stay grounded. -/
theorem Monotone.grounded_solve (hmonotone : problem.Monotone scale)
    (hlawful : problem.Lawful scale) (rounds : Nat) : problem.Grounded (problem.solve rounds) := by
  apply hlawful.solve_keeps hmonotone.grounded_start
  intro progress next node rest horderly hvisits hnode hne hgrounded
  exact hgrounded.visits hmonotone hlawful horderly hvisits hnode hne

end Problem

namespace Fact

theorem Canonical.meetInto_le {fact target bound : Fact} (h : fact.Canonical)
    (hfact : fact ≤ bound) (htarget : target ≤ bound) : fact.meetInto target ≤ bound := by
  intro v
  rw [h.get_meetInto]
  exact Value.meet_le (hfact v) (htarget v)

/-- Facts are equal when they are in normal form and each is below the other. -/
theorem Canonical.eq_of_le_of_le {a b : Fact} (ha : a.Canonical) (hb : b.Canonical) (hle : a ≤ b)
    (hge : b ≤ a) : a = b :=
  ha.ext hb fun v => le_antisymm (hle v) (hge v)

/-- Takes facts together, variable by variable. -/
def meetAll (facts : List Fact) : Fact := facts.foldr meetInto {}

theorem canonical_meetAll (facts : List Fact) : (meetAll facts).Canonical := by
  induction facts with
  | nil => exact canonical_empty
  | cons fact facts ih => exact ih.meetInto fact

theorem le_meetAll {facts : List Fact} (h : ∀ fact ∈ facts, fact.Canonical) {fact : Fact}
    (hfact : fact ∈ facts) : fact ≤ meetAll facts := by
  induction facts with
  | nil => cases hfact
  | cons first facts ih =>
    obtain ⟨hfirst, hrest⟩ := List.forall_mem_cons.mp h
    rcases List.mem_cons.mp hfact with rfl | hfact
    · exact hfirst.le_meetInto _
    · exact (ih hrest hfact).trans (hfirst.target_le_meetInto _)

theorem meetAll_le {facts : List Fact} (h : ∀ fact ∈ facts, fact.Canonical) {bound : Fact}
    (hbound : ∀ fact ∈ facts, fact ≤ bound) : meetAll facts ≤ bound := by
  induction facts with
  | nil => exact empty_le bound
  | cons first facts ih =>
    obtain ⟨hfirst, hrest⟩ := List.forall_mem_cons.mp h
    obtain ⟨hle, hles⟩ := List.forall_mem_cons.mp hbound
    exact hfirst.meetInto_le hle (ih hrest hles)

end Fact

namespace Constants

variable {program : Program} {id : MethodId} {method : Method}

/-- The transfers of a method that does not divide are monotone. -/
theorem Represents.monotone {equations : Problem Fact}
    (h : Represents program (Cfg.ofStmts id method.stmts) equations)
    (hmethod : program.getMethod id = .ok method)
    (hdivides : ∀ stmt ∈ method.stmts, stmt.divides = false) :
    equations.Monotone (scale program) where
  transfer node hnode a b hle := by
    rw [h.nodes] at hnode
    have htransfer := h.transfer node hnode
    rcases site?_eq_none_or_stmt hnode with hsite | ⟨index, stmt, rfl, hstmt⟩
    · rw [Constants.transfer, hsite] at htransfer
      rw [← Except.ok.inj htransfer]
      exact hle
    · rw [transfer_ofSite (getStmt_of_getElem? hmethod hstmt)] at htransfer
      rw [← Except.ok.inj htransfer]
      exact transferStmt_mono (hdivides stmt (Array.mem_of_getElem? hstmt)) _ hle
  meet_le ha hle hle' := by
    rw [h.meet]
    exact ha.1.toCanonical.meetInto_le hle hle'
  initial_le fact := by
    rw [h.initial]
    exact Fact.empty_le fact

/-- In a solution of the equations of a method in which nothing is kept that the predecessors of
a node do not send, what flows into the node is what they send, taken together. -/
theorem inputOf_eq_meetAll {equations : Problem Fact} {progress : Progress Fact} {node : Node}
    (hsolution : equations.Solution (scale program) progress)
    (hgrounded : equations.Grounded progress) (hnode : node ∈ equations.nodes)
    (hne : node ≠ equations.boundary) :
    equations.inputOf progress node =
      Fact.meetAll ((equations.sources node).map (equations.outputOf progress)) := by
  have hcanonical : ∀ fact ∈ (equations.sources node).map (equations.outputOf progress),
      fact.Canonical := by
    intro fact hfact
    obtain ⟨source, -, rfl⟩ := List.mem_map.mp hfact
    exact (hsolution.output_good source).1.toCanonical
  apply (hsolution.input_good node).1.toCanonical.eq_of_le_of_le (Fact.canonical_meetAll _)
  · apply hgrounded.input node hne
    intro source hsource
    exact Fact.le_meetAll hcanonical (List.mem_map_of_mem hsource)
  · apply Fact.meetAll_le hcanonical
    intro fact hfact
    obtain ⟨source, hsource, rfl⟩ := List.mem_map.mp hfact
    exact (hsolution.settled node hnode hne).flows source hsource

/-- The facts of constant propagation solve the equations of every method.  At the entry they
are the given fact; what flows out of any other node is the transfer of what flows in, and all
that its predecessors send has come in.  In a method that does not divide nothing else has: what
flows in is what they send, taken together. -/
theorem analyze_solves_equations (program : Program) {id : MethodId} {method : Method}
    (hmethod : program.getMethod id = .ok method) :
    ∃ cfg facts boundary, Cfg.build program id = .ok cfg ∧ analyze program id = .ok facts ∧
      boundaryFact program id = .ok boundary ∧
      facts.before.get? cfg.entry = some boundary ∧ facts.after.get? cfg.entry = some boundary ∧
      ∀ node ∈ cfg.nodes, node ≠ cfg.entry →
        facts.before.get? node = some (facts.input node) ∧
        (∃ f, transfer program node = .ok f ∧
          facts.after.get? node = some (f (facts.input node))) ∧
        (∀ source ∈ cfg.preds node, facts.output source ≤ facts.input node) ∧
        ((∀ stmt ∈ method.stmts, stmt.divides = false) →
          facts.input node = Fact.meetAll ((cfg.preds node).map facts.output)) := by
  obtain ⟨equations, hequations, -, -, -, -, hdescribes⟩ := exists_problem hmethod
  have hrepresents := represents_of_problem hequations
  have hsolution := hdescribes.solution hmethod (Nat.mul_le_mul_left 2 program.measured.vars)
  have hgrounded : (∀ stmt ∈ method.stmts, stmt.divides = false) →
      equations.Grounded (equations.solve (4 * program.listing.size + 8)) := fun hdivides =>
    (hrepresents.monotone hmethod hdivides).grounded_solve hdescribes.lawful _
  generalize hprogress : equations.solve (4 * program.listing.size + 8) = progress
    at hsolution hgrounded
  let facts : Facts Fact := ⟨progress.input, progress.output⟩
  have hanalyze : analyze program id = .ok facts := by
    rw [analyze, Cfg.build_of_getMethod hmethod, ok_bind, hequations, ok_bind, pure_eq_ok,
      hprogress]
  have hinput : facts.input = equations.inputOf progress := by
    funext node
    rw [Facts.input, Problem.inputOf, hrepresents.initial]
  have houtput : facts.output = equations.outputOf progress := by
    funext node
    rw [Facts.output, Problem.outputOf, hrepresents.initial]
  have hbefore := hsolution.input equations.boundary hdescribes.lawful.boundary
  have hafter := hsolution.output equations.boundary hdescribes.lawful.boundary
  rw [hsolution.boundary_input] at hbefore
  rw [hsolution.boundary_output] at hafter
  rw [hrepresents.boundary] at hbefore hafter
  refine ⟨_, facts, _, Cfg.build_of_getMethod hmethod, hanalyze, hrepresents.boundaryFact,
    hbefore, hafter, fun node hnode hne => ?_⟩
  rw [← hrepresents.boundary] at hne
  have hmem : node ∈ equations.nodes := hrepresents.nodes ▸ hnode
  have hsettled := hsolution.settled node hmem hne
  rw [hinput, houtput, ← hrepresents.sources]
  refine ⟨hsolution.input node hmem, ⟨_, hrepresents.transfer node hnode, ?_⟩, hsettled.flows,
    fun hdivides => inputOf_eq_meetAll hsolution (hgrounded hdivides) hmem hne⟩
  rw [← hsettled.output]
  exact hsolution.output node hmem

/-- A method that goes round and round, and calculates with its parameter and a variable that
has no value before the first round and zero after it. -/
def spinListing (op : BinaryOp) : Listing where
  classes := #[{ id := ⟨0⟩, name := "Loop", superClass := none, interfaces := [],
                 isInterface := false, isAbstract := false, methods := [⟨0⟩] }]
  methods := #[
    { id := ⟨0⟩, name := "spin", declaringClass := ⟨0⟩, subsignature := "spin(int)",
      isStatic := true, isAbstract := false, this := none, params := [⟨0⟩],
      stmts := #[.assign ⟨2⟩ (.binary op ⟨0⟩ ⟨1⟩), .assign ⟨1⟩ (.literal 0), .jump 0] }]
  fields := #[]
  vars := #[⟨⟨0⟩, "n", .int, ⟨0⟩⟩, ⟨⟨1⟩, "d", .int, ⟨0⟩⟩, ⟨⟨2⟩, "q", .int, ⟨0⟩⟩]
  entries := [⟨0⟩]

/-- The program of `spinListing`. -/
def spinProgram (op : BinaryOp) : Program where
  listing := spinListing op
  sound := by cases op <;> decide
  index := Index.ofListing (spinListing op)
  index_eq := rfl

/-- Where sums are calculated, the second statement knows what the first one leaves. -/
theorem analyze_solves_equations_spin : ∃ facts,
    analyze (spinProgram .add) ⟨0⟩ = .ok facts ∧
      facts.input (.stmt ⟨0⟩ 1) = Fact.meetAll [facts.output (.stmt ⟨0⟩ 0)] := by
  have hmethod : (spinProgram .add).getMethod ⟨0⟩ = .ok (spinListing .add).methods[0] := rfl
  obtain ⟨cfg, facts, boundary, hcfg, hfacts, -, -, -, hnodes⟩ :=
    analyze_solves_equations (spinProgram .add) hmethod
  rw [Cfg.build_of_getMethod hmethod] at hcfg
  cases hcfg
  have hdivides : ∀ stmt ∈ (spinListing .add).methods[0].stmts, stmt.divides = false := by decide
  obtain ⟨-, -, -, hexact⟩ := hnodes (.stmt ⟨0⟩ 1) (by decide) (by decide)
  exact ⟨facts, hfacts, hexact hdivides⟩

/-- Where quotients are calculated, the second statement keeps what the first one has left only
for a while: the quotient is no constant as long as nothing is known of the divisor, and has no
value when the divisor is known to be zero. -/
theorem analyze_not_exact_spin : ∃ cfg facts,
    Cfg.build (spinProgram .div) ⟨0⟩ = .ok cfg ∧ analyze (spinProgram .div) ⟨0⟩ = .ok facts ∧
      cfg.preds (.stmt ⟨0⟩ 1) = [.stmt ⟨0⟩ 0] ∧
      (facts.input (.stmt ⟨0⟩ 1)).get ⟨2⟩ = .nac ∧
      (facts.output (.stmt ⟨0⟩ 0)).get ⟨2⟩ = .undefined ∧
      facts.input (.stmt ⟨0⟩ 1) ≠ Fact.meetAll ((cfg.preds (.stmt ⟨0⟩ 1)).map facts.output) := by
  have hvalues : (match analyze (spinProgram .div) ⟨0⟩ with
      | .ok facts => some ((facts.input (.stmt ⟨0⟩ 1)).get ⟨2⟩,
          (facts.output (.stmt ⟨0⟩ 0)).get ⟨2⟩,
          (Fact.meetAll [facts.output (.stmt ⟨0⟩ 0)]).get ⟨2⟩)
      | .error _ => none) = some (.nac, .undefined, .undefined) := by
    decide +kernel
  split at hvalues
  · next facts hfacts =>
    simp only [Option.some.injEq, Prod.mk.injEq] at hvalues
    obtain ⟨hinput, houtput, hmeet⟩ := hvalues
    refine ⟨_, facts, Cfg.build_of_getMethod rfl, hfacts, by decide, hinput, houtput, ?_⟩
    intro heq
    have hsame : (facts.input (.stmt ⟨0⟩ 1)).get ⟨2⟩ =
        (Fact.meetAll [facts.output (.stmt ⟨0⟩ 0)]).get ⟨2⟩ := congrArg (Fact.get · ⟨2⟩) heq
    rw [hinput, hmeet] at hsame
    cases hsame
  · cases hvalues

end Constants

end ObjectFlow.Dataflow
