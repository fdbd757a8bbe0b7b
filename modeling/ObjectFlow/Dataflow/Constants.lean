import ObjectFlow.Dataflow.Value
import ObjectFlow.Dataflow.Worklist

/-!
# Constant propagation

The analysis follows the values of the variables that hold small numbers through one
method.  Arithmetic is that of 32-bit two's complement; a division by zero gives no
value.  What is loaded, allocated or returned by a call is not a constant.
-/

namespace ObjectFlow.Dataflow

/-- The result of an operation on two numbers, absent for a division by zero. -/
def fold (op : BinaryOp) (a b : Int32) : Option Int32 :=
  let truth (holds : Bool) : Int32 := if holds then 1 else 0
  match op with
  | .add => some (a + b)
  | .sub => some (a - b)
  | .mul => some (a * b)
  | .div => if b = 0 then none else some (a / b)
  | .rem => if b = 0 then none else some (a % b)
  | .eq => some (truth (a = b))
  | .ne => some (truth (a ≠ b))
  | .lt => some (truth (a < b))
  | .le => some (truth (a ≤ b))
  | .gt => some (truth (b < a))
  | .ge => some (truth (b ≤ a))
  | .shl => some (a <<< b)
  | .shr => some (a >>> b)
  | .ushr => some (a.toUInt32 >>> b.toUInt32).toInt32
  | .and => some (a &&& b)
  | .or => some (a ||| b)
  | .xor => some (a ^^^ b)

/-- The result of an operation on two values.  A zero divisor decides before anything
else. -/
def foldValues (op : BinaryOp) (a b : Value) : Value :=
  if op.mayThrow ∧ b = .constant 0 then .undefined
  else
    match a, b with
    | .nac, _ => .nac
    | _, .nac => .nac
    | .constant a, .constant b =>
      match fold op a b with
      | some c => .constant c
      | none => .undefined
    | _, _ => .undefined

/-- The value of an expression under a fact. -/
def evaluate (fact : Fact) : Exp → Value
  | .literal value => .constant value
  | .var v => fact.get v
  | .binary op lhs rhs => foldValues op (fact.get lhs) (fact.get rhs)

namespace Constants

/-- The value that a statement gives to the variable it writes. -/
def assigned (stmt : Stmt) (fact : Fact) : Value :=
  match stmt with
  | .assign _ rhs => evaluate fact rhs
  | .copy _ rhs => fact.get rhs
  | _ => .nac

/-- The fact after a statement, where `tracked` says whether the variable that the
statement writes is followed. -/
def transferStmt (tracked : Bool) (stmt : Stmt) (fact : Fact) : Fact :=
  match stmt.writes? with
  | some lhs => if tracked then fact.update lhs (assigned stmt fact) else fact
  | none => fact

/-- Whether the values of a variable are followed. -/
def tracks (program : Program) (var : VarId) : Except Fault Bool := do
  return (← program.getVar var).type.holdsInt

/-- Whether the values of the variable that a statement writes are followed. -/
def tracksWritten (program : Program) (stmt : Stmt) : Except Fault Bool :=
  match stmt.writes? with
  | some lhs => tracks program lhs
  | none => return false

/-- How facts pass a node.  Entries and exits change nothing. -/
def transfer (program : Program) (node : Node) : Except Fault (Fact → Fact) :=
  match node.site? with
  | none => return id
  | some site => do
    let stmt ← program.getStmt site
    return transferStmt (← tracksWritten program stmt) stmt

/-- At the entry of a method its parameters may have any value. -/
def boundaryFact (program : Program) (method : MethodId) : Except Fault Fact := do
  let params := (← program.getMethod method).params
  params.foldlM
    (fun fact param => return if ← tracks program param then fact.update param .nac else fact) {}

/-- The equations of constant propagation for one method. -/
def problem (program : Program) (cfg : Cfg) : Except Fault (Problem Fact) := do
  let boundaryFact ← boundaryFact program cfg.method
  let transfers ← cfg.nodes.mapM fun node => return (node, ← transfer program node)
  return {
    nodes := cfg.nodes
    sources := cfg.preds
    targets := cfg.succs
    boundary := cfg.entry
    boundaryFact
    initial := {}
    meet := Fact.meetInto
    transfer := fun node => (transfers.lookup node).getD id }

/-- The facts before and after every node of a method. -/
def analyze (program : Program) (method : MethodId) : Except Fault (Facts Fact) := do
  let problem ← problem program (← Cfg.build program method)
  let progress := problem.solve (4 * program.listing.size + 8)
  return { before := progress.input, after := progress.output }

end Constants

end ObjectFlow.Dataflow
