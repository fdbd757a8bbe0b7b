import ObjectFlow.Dataflow.Facts
import ObjectFlow.Iteration

/-!
# Dataflow equations of one method

A problem says how facts flow between the nodes of a graph.  The facts that flow into
a node are those that flow out of its sources, taken together; what flows out is the
transfer of what flows in.  At the boundary node both facts are given.  The solver
starts from the initial fact everywhere and visits nodes until no visit changes what
flows out.  What flows into a node is kept from visit to visit and only added to.
-/

namespace ObjectFlow.Dataflow

open Iteration (Turn)

/-- Dataflow equations over the facts `φ`. -/
structure Problem (φ : Type) where
  /-- The nodes in the order of their first visits. -/
  nodes : List Node
  sources : Node → List Node
  targets : Node → List Node
  boundary : Node
  boundaryFact : φ
  initial : φ
  /-- Takes two facts together. -/
  meet : φ → φ → φ
  transfer : Node → φ → φ

/-- The facts so far and the nodes to visit. -/
structure Progress (φ : Type) where
  input : Table Node φ
  output : Table Node φ
  queue : List Node

namespace Problem

variable {φ : Type} [DecidableEq φ]

/-- The start: the boundary is settled, and all other nodes wait. -/
def start (problem : Problem φ) : Progress φ where
  input := (Table.constant problem.nodes problem.initial).set problem.boundary problem.boundaryFact
  output := (Table.constant problem.nodes problem.initial).set problem.boundary problem.boundaryFact
  queue := problem.nodes.filter (· ≠ problem.boundary)

/-- Puts a node at the end of the queue unless it waits there or is the boundary. -/
def enqueue (problem : Problem φ) (queue : List Node) (node : Node) : List Node :=
  if node = problem.boundary ∨ node ∈ queue then queue else queue ++ [node]

/-- What flows into a node. -/
def inflow (problem : Problem φ) (progress : Progress φ) (node : Node) : φ :=
  (problem.sources node).foldl
    (fun fact source =>
      match progress.output.get? source with
      | some out => problem.meet out fact
      | none => fact)
    ((progress.input.get? node).getD problem.initial)

/-- Visits the next node. -/
def visit (problem : Problem φ) (progress : Progress φ) : Turn (Progress φ) :=
  match progress.queue with
  | [] => .done progress
  | node :: queue =>
    let input := problem.inflow progress node
    let output := problem.transfer node input
    let changed := progress.output.get? node ≠ some output
    .more {
      input := progress.input.set node input
      output := progress.output.set node output
      queue :=
        if changed then (problem.targets node).foldl problem.enqueue queue else queue }

/-- The facts that flow into and out of every node. -/
def solve (problem : Problem φ) (rounds : Nat) : Progress φ :=
  Iteration.settle problem.visit rounds problem.start

end Problem

end ObjectFlow.Dataflow
