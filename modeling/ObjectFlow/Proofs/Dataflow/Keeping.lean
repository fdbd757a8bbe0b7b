import ObjectFlow.Proofs.Dataflow.Interprocedural
import ObjectFlow.Proofs.Dataflow.Worklist

/-!
# What the solvers keep

A solver starts from given facts, and every visit takes facts together and passes them
through one node.  What holds of the facts at the start, and of what a visit makes of such facts,
holds of the facts at the end, whatever the order of the visits and wherever they stop.
-/

namespace ObjectFlow.Dataflow

namespace Problem

variable {φ : Type} [Preorder φ] [DecidableEq φ] {problem : Problem φ} {scale : Scale φ}

/-- What every visit keeps holds however many visits the solver makes. -/
theorem Lawful.solve_keeps (h : problem.Lawful scale) {Kept : Progress φ → Prop}
    (hstart : Kept problem.start)
    (hvisits : ∀ {progress next node rest}, problem.Orderly scale progress →
      problem.Visits progress next node rest → node ∈ problem.nodes → node ≠ problem.boundary →
      Kept progress → Kept next)
    (rounds : Nat) : Kept (problem.solve rounds) := by
  let Both (progress : Progress φ) : Prop := problem.Invariant scale progress ∧ Kept progress
  have hstep : ∀ progress, Both progress → Both (problem.visit progress).state := by
    rintro progress ⟨hinv, hkept⟩
    cases hqueue : progress.queue with
    | nil =>
      have hdone : problem.visit progress = .done progress := by simp [visit, hqueue]
      rw [hdone]
      exact ⟨hinv, hkept⟩
    | cons node rest =>
      obtain ⟨hnode, hne⟩ := hinv.queue_subset node (by simp [hqueue])
      obtain ⟨next, hnext, hvisit⟩ := hinv.orderly.visit hnode hqueue
      rw [hnext]
      exact ⟨h.invariant_visits hinv hqueue hvisit, hvisits hinv.orderly hvisit hnode hne hkept⟩
  exact (Iteration.settle_keeps hstep rounds ⟨h.invariant_start, hstart⟩).2

/-- What holds of the facts that flow into and out of each node, and is kept by the equations. -/
structure Keeps (problem : Problem φ) (In Out : Node → φ → Prop) : Prop where
  initial : ∀ node, In node problem.initial ∧ Out node problem.initial
  boundary : In problem.boundary problem.boundaryFact ∧
    Out problem.boundary problem.boundaryFact
  meet : ∀ node, ∀ source ∈ problem.sources node, ∀ {out fact},
    Out source out → In node fact → In node (problem.meet out fact)
  transfer : ∀ node ∈ problem.nodes, ∀ {fact},
    In node fact → Out node (problem.transfer node fact)

variable {In Out : Node → φ → Prop} {progress : Progress φ} {node : Node}

omit [Preorder φ] [DecidableEq φ] in
theorem Keeps.inflow (h : problem.Keeps In Out)
    (hfacts : ∀ other, In other (problem.inputOf progress other) ∧
      Out other (problem.outputOf progress other)) (node : Node) :
    In node (problem.inflow progress node) := by
  unfold Problem.inflow
  apply List.foldlRecOn (motive := In node) _ _ (hfacts node).1
  intro fact hfact source hsource
  cases hout : progress.output.get? source with
  | none => exact hfact
  | some out =>
    have hsent : problem.outputOf progress source = out := by simp [outputOf, hout]
    exact h.meet node source hsource (hsent ▸ (hfacts source).2) hfact

/-- However many visits the solver makes, its facts have what the equations keep. -/
theorem Keeps.solve (h : problem.Keeps In Out) (hlawful : problem.Lawful scale) (rounds : Nat)
    (node : Node) : In node (problem.inputOf (problem.solve rounds) node) ∧
      Out node (problem.outputOf (problem.solve rounds) node) := by
  let Kept (progress : Progress φ) : Prop := ∀ node,
    In node (problem.inputOf progress node) ∧ Out node (problem.outputOf progress node)
  have hstart : Kept problem.start := by
    intro node
    by_cases hboundary : node = problem.boundary
    · subst hboundary
      simpa [inputOf, outputOf, start] using h.boundary
    · by_cases hnode : node ∈ problem.nodes <;>
        simpa [inputOf, outputOf, start, hboundary, hnode] using h.initial node
  suffices hkept : Kept (problem.solve rounds) from hkept node
  apply hlawful.solve_keeps hstart
  intro progress next visited rest _ hvisits hvisited _ hkept other
  have hinflow := h.inflow hkept visited
  rw [hvisits.inputOf, hvisits.outputOf]
  split
  · next heq =>
    subst heq
    exact ⟨hinflow, h.transfer other hvisited hinflow⟩
  · exact hkept other

end Problem

namespace Interprocedural.Problem

variable {problem : Problem Fact} {vars : Nat} {stores : Node → Bool} {facts : Facts Fact}
  {In Out : Node → Fact → Prop}

/-- What holds of all facts before and after nodes. -/
def Holds (In Out : Node → Fact → Prop) (facts : Facts Fact) : Prop :=
  ∀ node, In node (facts.input node) ∧ Out node (facts.output node)

/-- What holds of the facts before and after each node, and is kept by the equations. -/
structure Keeps (problem : Problem Fact) (vars : Nat) (In Out : Node → Fact → Prop) : Prop where
  empty : ∀ node, In node {} ∧ Out node {}
  boundary : ∀ entry ∈ problem.boundary, In entry.1 entry.2 ∧ Out entry.1 entry.2
  along : ∀ node, ∀ edge ∈ problem.inEdges node, ∀ {out fact}, (edge.2 out).Tidy vars →
    Out edge.1 out → In node fact → In node ((edge.2 out).meetInto fact)
  transfer : ∀ node ∈ problem.nodes, ∀ {facts fact}, Holds In Out facts → In node fact →
    Out node (problem.transfer node facts fact)

theorem Holds.given {boundary : List (Node × Fact)} (h : Holds In Out facts)
    (hboundary : ∀ entry ∈ boundary, In entry.1 entry.2 ∧ Out entry.1 entry.2) :
    Holds In Out (given facts boundary) := by
  induction boundary generalizing facts with
  | nil => exact h
  | cons entry boundary ih =>
    obtain ⟨hentry, hrest⟩ := List.forall_mem_cons.mp hboundary
    rw [given_cons]
    apply ih _ hrest
    intro node
    by_cases hnode : node = entry.1
    · simpa [hnode] using hentry
    · simpa [hnode] using h node

theorem Keeps.start (h : problem.Keeps vars In Out) (hlawful : problem.Lawful vars stores) :
    Holds In Out problem.start.facts := by
  rw [start_facts]
  apply Holds.given _ h.boundary
  intro node
  by_cases hnode : node ∈ problem.nodes <;>
    simpa [Facts.input, Facts.output, hnode, hlawful.initial] using h.empty node

theorem Keeps.inflow (h : problem.Keeps vars In Out) (hlawful : problem.Lawful vars stores)
    (horderly : problem.Orderly vars stores facts) (hfacts : Holds In Out facts) (node : Node) :
    In node (problem.inflow facts node) := by
  rw [inflow_eq hlawful]
  apply List.foldlRecOn (motive := In node) _ _ (hfacts node).1
  intro fact hfact edge hedge
  have hout := horderly.after edge.1 (hlawful.source node edge hedge)
  rw [receive, hout, hlawful.meet]
  apply h.along node edge hedge _ (hfacts edge.1).2 hfact
  exact hlawful.along node edge hedge _ (horderly.output_tidy edge.1)

/-- A visit keeps what the equations keep. -/
theorem Keeps.visited (h : problem.Keeps vars In Out) (hlawful : problem.Lawful vars stores)
    (horderly : problem.Orderly vars stores facts) (hfacts : Holds In Out facts) {node : Node}
    (hnode : node ∈ problem.nodes) : Holds In Out (problem.visited facts node) := by
  have hinflow := h.inflow hlawful horderly hfacts node
  intro other
  rw [input_visited, output_visited]
  split
  · next heq =>
    subst heq
    exact ⟨hinflow, h.transfer other hnode hfacts hinflow⟩
  · exact hfacts other

/-- However many visits the solver makes, its facts have what the equations keep. -/
theorem Keeps.solve (h : problem.Keeps vars In Out) (hlawful : problem.Lawful vars stores)
    (rounds : Nat) : Holds In Out (problem.solve rounds).facts := by
  let Kept (progress : Progress Fact) : Prop :=
    problem.Invariant vars stores progress ∧ Holds In Out progress.facts
  have hstep : ∀ progress, Kept progress → Kept (problem.visit progress).state := by
    rintro progress ⟨hinv, hfacts⟩
    cases hqueue : progress.queue with
    | nil =>
      have hdone : problem.visit progress = .done progress := by simp [visit, hqueue]
      rw [hdone]
      exact ⟨hinv, hfacts⟩
    | cons node rest =>
      have hnode := hinv.queue_subset node (by simp [hqueue])
      obtain ⟨next, hnext, hvisited, -⟩ := hinv.orderly.visit hqueue hnode
      rw [hnext]
      refine ⟨hlawful.invariant_visit hinv hqueue hnext, ?_⟩
      have hkept := h.visited hlawful hinv.orderly hfacts hnode
      rw [← hvisited] at hkept
      exact hkept
  have hstart : Kept problem.start := ⟨hlawful.invariant_start, h.start hlawful⟩
  exact (Iteration.settle_keeps hstep rounds hstart).2

end Interprocedural.Problem

end ObjectFlow.Dataflow
