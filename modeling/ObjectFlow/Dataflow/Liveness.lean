import ObjectFlow.Dataflow.Worklist
import ObjectFlow.SortedSet

/-!
# Live variables

A variable is live where some path reads it before writing it.  Facts flow against the
direction of control.
-/

namespace ObjectFlow.Dataflow.Liveness

/-- The variables that are live before a statement, from those that are live after it. -/
def transferStmt (stmt : Stmt) (live : SortedSet VarId) : SortedSet VarId :=
  let kept :=
    match stmt.writes? with
    | some lhs => live.erase lhs
    | none => live
  stmt.uses.foldl SortedSet.insert kept

/-- How facts pass a node.  Entries and exits change nothing. -/
def transfer (program : Program) (node : Node) :
    Except Fault (SortedSet VarId → SortedSet VarId) :=
  match node.site? with
  | none => return id
  | some site => do return transferStmt (← program.getStmt site)

/-- The equations of liveness for one method.  Nothing is live at the exit. -/
def problem (program : Program) (cfg : Cfg) : Except Fault (Problem (SortedSet VarId)) := do
  let transfers ← cfg.nodes.mapM fun node => return (node, ← transfer program node)
  return {
    nodes := cfg.nodes.reverse
    sources := cfg.succs
    targets := cfg.preds
    boundary := cfg.exit
    boundaryFact := {}
    initial := {}
    meet := fun live target => target.union live
    transfer := fun node => (transfers.lookup node).getD id }

/-- The variables that are live before and after every node of a method. -/
def analyze (program : Program) (method : MethodId) :
    Except Fault (Facts (SortedSet VarId)) := do
  let problem ← problem program (← Cfg.build program method)
  let progress := problem.solve (4 * program.listing.size + 8)
  return { before := progress.output, after := progress.input }

end ObjectFlow.Dataflow.Liveness
