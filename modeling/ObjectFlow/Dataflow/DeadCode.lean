import ObjectFlow.Dataflow.Constants
import ObjectFlow.Dataflow.Liveness

/-!
# Dead code

A statement is dead when no run gets there, as far as the constants tell where branches
go, or when it only writes a variable that is not live after it.  Allocations, heap
accesses, calls and divisions do more than write a variable and are kept.
-/

namespace ObjectFlow.Dataflow.DeadCode

open Iteration (Turn)

/-- The variable that a statement writes when it does nothing else. -/
def pureTarget? : Stmt → Option VarId
  | .copy lhs _ => some lhs
  | .assign lhs (.binary op _ _) => if op.mayThrow then none else some lhs
  | .assign lhs _ => some lhs
  | _ => none

/-- Whether a statement only writes a variable that is not live after it. -/
def isDeadAssignment (stmt : Stmt) (live : Option (SortedSet VarId)) : Bool :=
  match pureTarget? stmt with
  | none => false
  | some lhs => !live.any fun set => set.contains lhs

/-- Where a two-way branch goes under a fact. -/
def takenBranch (cfg : Cfg) (node : Node) (condition : Exp) (fact : Fact) : List Node :=
  let edges := cfg.outEdges node
  match evaluate fact condition with
  | .constant c =>
    let wanted : EdgeKind := if c ≠ 0 then .ifTrue else .ifFalse
    (edges.filter fun (kind, _) => kind = wanted).map (·.2)
  | _ => edges.map (·.2)

/-- Whether an edge of a switch is taken for a number. -/
def caseMatches (cases : List (Int32 × Nat)) (c : Int32) : EdgeKind → Bool
  | .switchCase value => value == c
  | .switchDefault => !cases.any fun (value, _) => value == c
  | _ => false

/-- Where a switch goes for a value: to the first case that matches. -/
def takenSwitch (cfg : Cfg) (node : Node) (cases : List (Int32 × Nat)) (value : Value) :
    List Node :=
  let edges := cfg.outEdges node
  match value with
  | .constant c => ((edges.filter fun (kind, _) => caseMatches cases c kind).map (·.2)).take 1
  | _ => edges.map (·.2)

/-- A walk from the entry: the nodes to visit, those reached, and those kept. -/
structure Walk where
  queue : List Node
  reached : List Node := []
  kept : List Node := []

/-- Where control goes from a node, and whether its statement is kept. -/
def follow (cfg : Cfg) (constants : Facts Fact) (live : Facts (SortedSet VarId)) (node : Node) :
    List Node × Bool :=
  let fact := (constants.before.get? node).getD {}
  match cfg.stmt? node with
  | none => (cfg.succs node, false)
  | some (.branch condition _) => (takenBranch cfg node condition fact, true)
  | some (.switch var cases _) => (takenSwitch cfg node cases (fact.get var), true)
  | some stmt => (cfg.succs node, !isDeadAssignment stmt (live.after.get? node))

/-- Visits the next node. -/
def visit (cfg : Cfg) (constants : Facts Fact) (live : Facts (SortedSet VarId)) (walk : Walk) :
    Turn Walk :=
  match walk.queue with
  | [] => .done walk
  | node :: queue =>
    if walk.reached.contains node then .more { walk with queue }
    else
      let (next, kept) := follow cfg constants live node
      .more {
        queue := queue ++ next
        reached := node :: walk.reached
        kept := if kept then node :: walk.kept else walk.kept }

/-- The positions of the dead statements, in ascending order. -/
def find (cfg : Cfg) (constants : Facts Fact) (live : Facts (SortedSet VarId)) : List Nat :=
  let walk := Iteration.settle (visit cfg constants live) (cfg.nodes.length + cfg.edges.length + 2)
    { queue := [cfg.entry] }
  (List.range cfg.stmts.size).filter fun index =>
    !walk.kept.contains (.stmt cfg.method index)

/-- The dead statements of a method, from its own constants. -/
def analyze (program : Program) (method : MethodId) : Except Fault (List Nat) := do
  let cfg ← Cfg.build program method
  return find cfg (← Constants.analyze program method) (← Liveness.analyze program method)

end ObjectFlow.Dataflow.DeadCode
