import ObjectFlow.Dataflow.Facts
import ObjectFlow.Iteration

/-!
# Dataflow equations of a whole program

Facts flow along edges, and an edge may change them on the way.  What a node does to a
fact may depend on the facts at other nodes; a node whose fact changed names the nodes
that have to be visited again because they depend on it.
-/

namespace ObjectFlow.Dataflow.Interprocedural

open Iteration (Turn)

/-- Dataflow equations over the facts `φ`. -/
structure Problem (φ : Type) where
  nodes : List Node
  /-- The sources of the edges to a node, and what the edges do to facts. -/
  inEdges : Node → List (Node × (φ → φ))
  succs : Node → List Node
  /-- The nodes whose facts are given at the start. -/
  boundary : List (Node × φ)
  initial : φ
  meet : φ → φ → φ
  /-- What a node does to a fact, given the facts at all nodes. -/
  transfer : Node → Facts φ → φ → φ
  /-- The nodes that depend on what flows out of a node, given that fact. -/
  dependents : Node → Facts φ → φ → List Node

/-- The facts so far, the nodes to visit, and how much was done. -/
structure Progress (φ : Type) where
  facts : Facts φ
  queue : List Node
  visits : Nat := 0
  /-- How often a node was named as a dependent. -/
  requeues : Nat := 0

namespace Problem

variable {φ : Type} [DecidableEq φ]

/-- The start: the given facts at the boundary, the initial fact at all other nodes. -/
def start (problem : Problem φ) : Progress φ where
  facts :=
    problem.boundary.foldl
      (fun facts (node, fact) => (facts.setBefore node fact).setAfter node fact)
      { before := .constant problem.nodes problem.initial
        after := .constant problem.nodes problem.initial }
  queue := problem.nodes

/-- Puts a node of the graph at the end of the queue unless it waits there. -/
def enqueue (problem : Problem φ) (queue : List Node) (node : Node) : List Node :=
  if node ∈ problem.nodes ∧ node ∉ queue then queue ++ [node] else queue

/-- What flows into a node. -/
def inflow (problem : Problem φ) (facts : Facts φ) (node : Node) : φ :=
  (problem.inEdges node).foldl
    (fun fact (source, along) =>
      match facts.after.get? source with
      | some out => problem.meet (along out) fact
      | none => fact)
    ((facts.before.get? node).getD problem.initial)

/-- Visits the next node. -/
def visit (problem : Problem φ) (progress : Progress φ) : Turn (Progress φ) :=
  match progress.queue with
  | [] => .done progress
  | node :: queue =>
    let facts := progress.facts
    let input := problem.inflow facts node
    let output := problem.transfer node facts input
    let changed := facts.after.get? node ≠ some output
    let dependents := if changed then problem.dependents node facts output else []
    let queue := dependents.foldl problem.enqueue queue
    .more {
      facts := (facts.setBefore node input).setAfter node output
      queue := if changed then (problem.succs node).foldl problem.enqueue queue else queue
      visits := progress.visits + 1
      requeues := progress.requeues + dependents.length }

/-- The facts before and after every node. -/
def solve (problem : Problem φ) (rounds : Nat) : Progress φ :=
  Iteration.settle problem.visit rounds problem.start

end Problem

end ObjectFlow.Dataflow.Interprocedural
