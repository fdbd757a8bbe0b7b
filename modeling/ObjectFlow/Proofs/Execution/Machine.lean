import Mathlib.Logic.Function.Basic
import ObjectFlow.CallGraph.Hierarchy
import ObjectFlow.Proofs.ControlFlow
import ObjectFlow.Proofs.Program.Index

/-!
# Runs of a program

A reference semantics, against which the analyses are proved sound.  A machine has the
objects that were created, the cells of the heap, and a stack of frames.  Every frame has
variables of its own.  A run moves references between variables and cells; it knows no
numbers, so that a branch may go either way and an array access goes to any index.
-/

namespace ObjectFlow.Execution

/-- A reference is the number of an object. -/
abbrev Ref := Nat

/-- An object: the statement that created it, and its type. -/
structure Object where
  alloc : Site
  type : Ty
  deriving DecidableEq, Repr

/-- A place in the heap.  Array slots are told apart by their index. -/
inductive Cell where
  | staticField (field : FieldId)
  | field (object : Ref) (field : FieldId)
  | slot (object : Ref) (index : Int32)
  deriving DecidableEq, Repr

/-- The values of variables, of some kind `α`. -/
abbrev Env (α : Type) := VarId → Option α

/-- The values in the heap. -/
abbrev Cells (α : Type) := Cell → Option α

structure Frame where
  method : MethodId
  /-- What the frame does next. -/
  point : Point
  /-- The variable that a `return` named. -/
  returned : Option VarId
  vars : Env Ref

structure Machine where
  objects : List Object
  cells : Cells Ref
  /-- The frame that runs. -/
  frame : Frame
  /-- The frames that wait for a call to end, the last one first. -/
  callers : List Frame

/-- The point of a position; past the last statement it is the exit. -/
def pointAt (length index : Nat) : Point := if index < length then .stmt index else .exit

/-- Where a statement at a position may lead.  A branch may go either way. -/
def Leads (length index : Nat) : Stmt → Point → Prop
  | .branch _ target, next => next = pointAt length target ∨ next = pointAt length (index + 1)
  | .jump target, next => next = pointAt length target
  | .switch _ cases default, next =>
      (∃ arm ∈ cases, next = pointAt length arm.2) ∨ next = pointAt length default
  | .ret _, next => next = .exit
  | _, next => next = pointAt length (index + 1)

/-- The cell that a load or a store goes to, where `index` is the position of an array
access.  There is none when the base holds nothing. -/
def cell? (refs : Env Ref) (index : Int32) : Stmt → Option Cell
  | .loadField _ none field => some (.staticField field)
  | .loadField _ (some base) field => (refs base).map (.field · field)
  | .storeField none field _ => some (.staticField field)
  | .storeField (some base) field _ => (refs base).map (.field · field)
  | .loadArray _ base _ => (refs base).map (.slot · index)
  | .storeArray base _ _ => (refs base).map (.slot · index)
  | _ => none

section

variable {α : Type}

/-- The variables after a statement that moves values. -/
def moved (stmt : Stmt) (cell : Option Cell) (vars : Env α) (cells : Cells α) : Env α :=
  match stmt with
  | .copy lhs rhs => Function.update vars lhs (vars rhs)
  | .loadField lhs _ _ => Function.update vars lhs (cell.bind cells)
  | .loadArray lhs _ _ => Function.update vars lhs (cell.bind cells)
  | _ => vars

/-- The heap after a statement that moves values. -/
def stored (stmt : Stmt) (cell : Option Cell) (vars : Env α) (cells : Cells α) : Cells α :=
  match stmt, cell with
  | .storeField _ _ rhs, some cell => Function.update cells cell (vars rhs)
  | .storeArray _ _ rhs, some cell => Function.update cells cell (vars rhs)
  | _, _ => cells

/-- The variables of a callee: arguments bind the common prefix of the parameters. -/
def bound (args params : List VarId) (vars : Env α) : Env α :=
  (args.zip params).foldl (fun env (arg, param) => Function.update env param (vars arg))
    fun _ => none

/-- The variables of a caller after a call: the result takes the returned value. -/
def received (result returned : Option VarId) (vars callee : Env α) : Env α :=
  match result, returned with
  | some result, some value => Function.update vars result (callee value)
  | _, _ => vars

end

namespace Machine

/-- The running frame is at a statement. -/
structure Executes (program : Program) (machine : Machine) (method : Method) (index : Nat)
    (stmt : Stmt) : Prop where
  getMethod : program.getMethod machine.frame.method = .ok method
  point : machine.frame.point = .stmt index
  stmt : method.stmts[index]? = some stmt

/-- The machine after a statement that is no call. -/
def execute (machine : Machine) (position : Nat) (stmt : Stmt) (index : Int32) (next : Point) :
    Machine :=
  let frame := machine.frame
  let cell := cell? frame.vars index stmt
  match stmt with
  | .alloc lhs type =>
    { machine with
      objects := machine.objects ++ [⟨⟨frame.method, position⟩, type⟩]
      frame := { frame with
        point := next
        vars := Function.update frame.vars lhs (some machine.objects.length) } }
  | stmt =>
    { machine with
      cells := stored stmt cell frame.vars machine.cells
      frame := { frame with
        point := next
        returned := stmt.returned?
        vars := moved stmt cell frame.vars machine.cells } }

section Execute

variable (machine : Machine) (position : Nat) (stmt : Stmt) (index : Int32) (next : Point)

@[simp]
theorem execute_method : (machine.execute position stmt index next).frame.method =
    machine.frame.method := by
  cases stmt <;> rfl

@[simp]
theorem execute_point : (machine.execute position stmt index next).frame.point = next := by
  cases stmt <;> rfl

@[simp]
theorem execute_callers : (machine.execute position stmt index next).callers =
    machine.callers := by
  cases stmt <;> rfl

/-- Objects stay. -/
theorem exists_execute_objects :
    ∃ more, (machine.execute position stmt index next).objects = machine.objects ++ more := by
  cases stmt with
  | alloc lhs type => exact ⟨_, rfl⟩
  | _ => exact ⟨[], (List.append_nil _).symm⟩

end Execute

/-- The machine after a call. -/
def call (machine : Machine) (callee : MethodId) (vars : Env Ref) : Machine :=
  { machine with
    frame := { method := callee, point := .entry, returned := none, vars }
    callers := machine.frame :: machine.callers }

/-- The machine after the end of a call that `caller` waits for at a position. -/
def back (machine : Machine) (caller : Frame) (callers : List Frame) (length position : Nat)
    (call : Call) : Machine :=
  { machine with
    frame := { caller with
      point := pointAt length (position + 1)
      vars := received call.result machine.frame.returned caller.vars machine.frame.vars }
    callers }

end Machine

/-- The receiver of a call is bound to the variable that the callee has for it. -/
def withThis (this : Option VarId) (receiver : Ref) (vars : Env Ref) : Env Ref :=
  match this with
  | some this => Function.update vars this (some receiver)
  | none => vars

/-- One step of a run, where `index` is the position of an array access.  There is none
when a call is not resolved or its receiver holds nothing. -/
inductive Step (program : Program) (index : Int32) : Machine → Machine → Prop where
  | enter {machine : Machine} {method : Method}
    (hmethod : program.getMethod machine.frame.method = .ok method)
    (hpoint : machine.frame.point = .entry) :
    Step program index machine
      { machine with frame := { machine.frame with point := pointAt method.stmts.size 0 } }
  | execute {machine : Machine} {method : Method} {position : Nat} {stmt : Stmt} {next : Point}
    (hat : machine.Executes program method position stmt) (hplain : stmt.isCall = false)
    (hnext : Leads method.stmts.size position stmt next) :
    Step program index machine (machine.execute position stmt index next)
  | staticCall {machine : Machine} {method target : Method} {position : Nat} {call : Call}
    {callee : MethodId} (hat : machine.Executes program method position (.invoke call))
    (hstatic : call.kind = .static)
    (hcallee : program.callee none call.kind call.target = .ok (some callee))
    (htarget : program.getMethod callee = .ok target) :
    Step program index machine
      (machine.call callee (bound call.args target.params machine.frame.vars))
  | receiverCall {machine : Machine} {method target : Method} {position : Nat} {call : Call}
    {base : VarId} {receiver : Ref} {object : Object} {callee : MethodId}
    (hat : machine.Executes program method position (.invoke call))
    (hkind : call.kind ≠ .static) (hbase : call.base = some base)
    (hreceiver : machine.frame.vars base = some receiver)
    (hobject : machine.objects[receiver]? = some object)
    (hcallee : program.callee (some object.type) call.kind call.target = .ok (some callee))
    (htarget : program.getMethod callee = .ok target) :
    Step program index machine (machine.call callee
      (withThis target.this receiver (bound call.args target.params machine.frame.vars)))
  | back {machine : Machine} {caller : Frame} {callers : List Frame} {method : Method}
    {position : Nat} {call : Call} (hpoint : machine.frame.point = .exit)
    (hcallers : machine.callers = caller :: callers)
    (hat : Machine.Executes program { machine with frame := caller } method position
      (.invoke call)) :
    Step program index machine (machine.back caller callers method.stmts.size position call)

/-- A run starts in an entry method, with nothing in its variables. -/
def Machine.initial (entry : MethodId) : Machine where
  objects := []
  cells _ := none
  frame := { method := entry, point := .entry, returned := none, vars := fun _ => none }
  callers := []

/-- The machines that the runs of a program go through. -/
inductive Runs (program : Program) : Machine → Prop where
  | start {entry : MethodId} (hentry : entry ∈ program.entries) : Runs program (.initial entry)
  | step {machine next : Machine} (h : Runs program machine) (index : Int32)
    (hstep : Step program index machine next) : Runs program next

section ControlFlow

variable {method : MethodId} {stmts : Array Stmt}

theorem nodeAt_eq (method : MethodId) (length index : Nat) :
    Cfg.nodeAt method length index = ⟨method, pointAt length index⟩ := by
  unfold Cfg.nodeAt pointAt
  split <;> rfl

theorem mem_succs_entry :
    ⟨method, pointAt stmts.size 0⟩ ∈ (Cfg.ofStmts method stmts).succs (.entry method) := by
  rw [Cfg.mem_succs_entry_iff, nodeAt_eq]

/-- A run goes along the edges of the control-flow graph. -/
theorem Leads.mem_succs {position : Nat} {stmt : Stmt} {next : Point}
    (h : Leads stmts.size position stmt next) (hstmt : stmts[position]? = some stmt) :
    ⟨method, next⟩ ∈ (Cfg.ofStmts method stmts).succs (.stmt method position) := by
  rw [Cfg.mem_succs_stmt_iff hstmt]
  cases stmt with
  | branch condition target =>
    rcases h with rfl | rfl
    · exact ⟨.ifTrue, by simp [Cfg.exits, nodeAt_eq]⟩
    · exact ⟨.ifFalse, by simp [Cfg.exits, nodeAt_eq]⟩
  | jump target =>
    cases h
    exact ⟨.goto, by simp [Cfg.exits, nodeAt_eq]⟩
  | switch v arms default =>
    rcases h with ⟨arm, harm, rfl⟩ | rfl
    · refine ⟨.switchCase arm.1, List.mem_append_left _ (List.mem_map.mpr ⟨arm, harm, ?_⟩)⟩
      simp only [nodeAt_eq]
    · exact ⟨.switchDefault, by simp [Cfg.exits, nodeAt_eq]⟩
  | ret value =>
    cases h
    exact ⟨.ret, by simp [Cfg.exits, Node.exit]⟩
  | _ =>
    cases h
    exact ⟨.fallThrough, by simp [Cfg.exits, nodeAt_eq]⟩

/-- The running frame stands at a node of the control-flow graph of its method. -/
def Machine.Inside (program : Program) (machine : Machine) : Prop :=
  ∃ found, program.getMethod machine.frame.method = .ok found ∧
    Node.Inside found.stmts.size machine.frame.point

theorem inside_pointAt (length index : Nat) : Node.Inside length (pointAt length index) := by
  unfold pointAt
  split
  · next hlt => exact hlt
  · trivial

theorem Leads.inside {position : Nat} {stmt : Stmt} {next : Point}
    (h : Leads stmts.size position stmt next) (hstmt : stmts[position]? = some stmt) :
    Node.Inside stmts.size next := by
  have hsuccs : ⟨⟨0⟩, next⟩ ∈ (Cfg.ofStmts ⟨0⟩ stmts).succs (.stmt ⟨0⟩ position) :=
    h.mem_succs hstmt
  exact (Cfg.mem_nodes_iff.mp (Cfg.mem_nodes_of_mem_succs hsuccs).2).2

theorem Step.inside {program : Program} {index : Int32} {machine next : Machine}
    (h : Step program index machine next) : next.Inside program := by
  cases h with
  | enter hmethod => exact ⟨_, hmethod, inside_pointAt _ _⟩
  | execute hat _ hnext =>
    refine ⟨_, by rw [Machine.execute_method, hat.getMethod], ?_⟩
    rw [Machine.execute_point]
    exact hnext.inside hat.stmt
  | staticCall _ _ _ htarget => exact ⟨_, htarget, trivial⟩
  | receiverCall _ _ _ _ _ _ htarget => exact ⟨_, htarget, trivial⟩
  | back _ _ hat => exact ⟨_, hat.getMethod, inside_pointAt _ _⟩

theorem Runs.inside {program : Program} {machine : Machine} (h : Runs program machine) :
    machine.Inside program := by
  cases h with
  | start hentry =>
    obtain ⟨found, hfound⟩ := Program.exists_getMethod (program.inRange.entry _ hentry)
    exact ⟨found, hfound, trivial⟩
  | step _ _ hstep => exact hstep.inside

end ControlFlow

end ObjectFlow.Execution
