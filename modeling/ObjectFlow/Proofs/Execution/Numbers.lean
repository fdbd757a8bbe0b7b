import ObjectFlow.Proofs.Execution.Arithmetic
import ObjectFlow.Proofs.Execution.Machine

/-!
# Runs with numbers

A run with references and with numbers.  Only variables of a type for small numbers carry
a number.  Branches follow the numbers that they read, and array accesses go to the index
that their variable holds.  A run ends where a number is needed and there is none.
-/

namespace ObjectFlow.Execution

/-- The number that an expression has. -/
def evaluate? (vars : Env Int32) : Exp → Option Int32
  | .literal value => some value
  | .var v => vars v
  | .binary op lhs rhs => do calculate? op (← vars lhs) (← vars rhs)

/-- The numbers of a machine. -/
structure Numbers where
  /-- Those of the frame that runs. -/
  vars : Env Int32
  /-- Those of the frames that wait for a call to end, the last one first. -/
  callers : List (Env Int32)
  cells : Cells Int32

section

variable (program : Program)

/-- What is left when only variables for small numbers carry a number. -/
def carried (vars : Env Int32) : Env Int32 := fun v => if program.holdsInt v then vars v else none

/-- Where a branch or a switch goes.  It may go to any of its targets when it reads a
variable that carries no numbers. -/
def Follows (vars : Env Int32) (length position : Nat) : Stmt → Point → Prop
  | .branch condition target, next =>
    condition.uses.all program.holdsInt = true → ∃ c, evaluate? vars condition = some c ∧
      next = pointAt length (if c ≠ 0 then target else position + 1)
  | .switch v cases default, next =>
    program.holdsInt v = true → ∃ c, vars v = some c ∧
      next = pointAt length ((cases.lookup c).getD default)
  | _, _ => True

end

/-- The variable with the index of an array access. -/
def position? : Stmt → Option VarId
  | .loadArray _ _ position => some position
  | .storeArray _ position _ => some position
  | _ => none

/-- The variable that takes a value from elsewhere. -/
def taker? : Stmt → Option VarId
  | .copy lhs _ => some lhs
  | .assign lhs _ => some lhs
  | .loadField lhs _ _ => some lhs
  | .loadArray lhs _ _ => some lhs
  | _ => none

namespace Numbers

/-- The number that a statement gives to the variable that it writes. -/
def given? (numbers : Numbers) (cell : Option Cell) : Stmt → Option Int32
  | .copy _ rhs => numbers.vars rhs
  | .assign _ rhs => evaluate? numbers.vars rhs
  | .loadField _ _ _ => cell.bind numbers.cells
  | .loadArray _ _ _ => cell.bind numbers.cells
  | _ => none

/-- A statement finds the numbers that it needs, where `index` is the position of an array
access. -/
structure Ready (program : Program) (numbers : Numbers) (cell : Option Cell) (index : Int32)
    (stmt : Stmt) : Prop where
  position : ∀ v, position? stmt = some v → numbers.vars v = some index
  given : ∀ lhs, taker? stmt = some lhs → program.holdsInt lhs = true →
    (numbers.given? cell stmt).isSome = true

variable (program : Program) (numbers : Numbers)

/-- The numbers after a statement that is no call. -/
def execute (cell : Option Cell) (stmt : Stmt) : Numbers :=
  { numbers with
    vars :=
      match stmt.writes? with
      | some lhs => carried program (Function.update numbers.vars lhs (numbers.given? cell stmt))
      | none => numbers.vars
    cells := stored stmt cell numbers.vars numbers.cells }

/-- The numbers after a call.  Its result has none until the call ends. -/
def call (call : Call) (target : Method) : Numbers :=
  { numbers with
    vars := carried program (bound call.args target.params numbers.vars)
    callers :=
      (match call.result with
        | some result => Function.update numbers.vars result none
        | none => numbers.vars) :: numbers.callers }

/-- The numbers after the end of a call, where `caller` are those of the frame that waits
for it. -/
def back (call : Call) (returned : Option VarId) (caller : Env Int32)
    (callers : List (Env Int32)) : Numbers :=
  { numbers with
    vars := carried program (received call.result returned caller numbers.vars)
    callers }

end Numbers

/-- One step of a run with numbers. -/
inductive NumericStep (program : Program) (index : Int32) :
    Machine → Numbers → Machine → Numbers → Prop where
  | enter {machine : Machine} {numbers : Numbers} {method : Method}
    (hmethod : program.getMethod machine.frame.method = .ok method)
    (hpoint : machine.frame.point = .entry) :
    NumericStep program index machine numbers
      { machine with frame := { machine.frame with point := pointAt method.stmts.size 0 } } numbers
  | execute {machine : Machine} {numbers : Numbers} {method : Method} {position : Nat}
    {stmt : Stmt} {next : Point} (hat : machine.Executes program method position stmt)
    (hplain : stmt.isCall = false) (hnext : Leads method.stmts.size position stmt next)
    (hready : numbers.Ready program (cell? machine.frame.vars index stmt) index stmt)
    (hfollows : Follows program numbers.vars method.stmts.size position stmt next) :
    NumericStep program index machine numbers (machine.execute position stmt index next)
      (numbers.execute program (cell? machine.frame.vars index stmt) stmt)
  | call {machine : Machine} {numbers : Numbers} {method target : Method} {position : Nat}
    {call : Call} {callee : MethodId} {vars : Env Ref}
    (hat : machine.Executes program method position (.invoke call))
    (hcall : Step program index machine (machine.call callee vars))
    (htarget : program.getMethod callee = .ok target) :
    NumericStep program index machine numbers (machine.call callee vars)
      (numbers.call program call target)
  | back {machine : Machine} {numbers : Numbers} {caller : Frame} {callers : List Frame}
    {method : Method} {position : Nat} {call : Call} {vars : Env Int32}
    {rest : List (Env Int32)} (hpoint : machine.frame.point = .exit)
    (hcallers : machine.callers = caller :: callers)
    (hat : Machine.Executes program { machine with frame := caller } method position
      (.invoke call))
    (hnumbers : numbers.callers = vars :: rest) :
    NumericStep program index machine numbers
      (machine.back caller callers method.stmts.size position call)
      (numbers.back program call machine.frame.returned vars rest)

/-- The machines and numbers that the runs of a program go through.  At the start the
parameters of an entry method have any numbers. -/
inductive NumericRuns (program : Program) : Machine → Numbers → Prop where
  | start {entry : MethodId} {method : Method} {vars : Env Int32}
    (hentry : entry ∈ program.entries) (hmethod : program.getMethod entry = .ok method)
    (hvars : ∀ v c, vars v = some c → v ∈ method.params ∧ program.holdsInt v = true) :
    NumericRuns program (.initial entry) ⟨vars, [], fun _ => none⟩
  | step {machine next : Machine} {numbers numbers' : Numbers}
    (h : NumericRuns program machine numbers) (index : Int32)
    (hstep : NumericStep program index machine numbers next numbers') :
    NumericRuns program next numbers'

variable {program : Program} {index : Int32} {machine next : Machine} {numbers numbers' : Numbers}

theorem NumericStep.step (h : NumericStep program index machine numbers next numbers') :
    Step program index machine next := by
  cases h with
  | enter hmethod hpoint => exact .enter hmethod hpoint
  | execute hat hplain hnext => exact .execute hat hplain hnext
  | call _ hcall => exact hcall
  | back hpoint hcallers hat => exact .back hpoint hcallers hat

/-- Without its numbers, a run with numbers is a run. -/
theorem NumericRuns.runs (h : NumericRuns program machine numbers) : Runs program machine := by
  induction h with
  | start hentry => exact .start hentry
  | step _ index hstep ih => exact ih.step index hstep.step

end ObjectFlow.Execution
