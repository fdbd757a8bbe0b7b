import ObjectFlow.Program.Basic

/-!
# Control flow

The control-flow graph of a method has a node for its entry, one for each statement,
and one for its exit.  Every statement stays in the graph, whether a run can get there
or not.  A statement leads to its branch targets; one that is no branch leads to the
next statement, and the last one to the exit.

The edges are one list, in the order in which they are added.  The list stands for a graph
that skips an edge when one of its ends is no node, keeps the edges of each node with the
newest first, and turns them round once when they are read.  Both ends of every edge of a
method are nodes of its graph, so that the skip leaves out nothing, and what is read of a
node is its part of the list, in the order of the list.
-/

namespace ObjectFlow

/-- A point in a method. -/
inductive Point where
  | entry
  | stmt (index : Nat)
  | exit
  deriving DecidableEq, Repr

/-- A point in a method of the program. -/
structure Node where
  method : MethodId
  point : Point
  deriving DecidableEq, Repr

namespace Node

def entry (method : MethodId) : Node := ⟨method, .entry⟩

def stmt (method : MethodId) (index : Nat) : Node := ⟨method, .stmt index⟩

def exit (method : MethodId) : Node := ⟨method, .exit⟩

def ofSite (site : Site) : Node := .stmt site.method site.index

/-- The position of the statement. -/
def index? (node : Node) : Option Nat :=
  match node.point with
  | .stmt index => some index
  | _ => none

def site? (node : Node) : Option Site := node.index?.map (⟨node.method, ·⟩)

def text (node : Node) : String :=
  match node.point with
  | .entry => node.method.text ++ ":entry"
  | .stmt index => node.method.text ++ ":" ++ toString index
  | .exit => node.method.text ++ ":exit"

end Node

namespace Point

/-- In a method the entry comes first, then the statements, then the exit. -/
def before : Point → Point → Bool
  | entry, entry => false
  | entry, _ => true
  | stmt _, entry => false
  | stmt a, stmt b => a < b
  | stmt _, exit => true
  | exit, _ => false

end Point

namespace Node

/-- Nodes are ordered by method and then by point. -/
instance : LT Node :=
  ⟨fun a b => a.method < b.method ∨ (a.method = b.method ∧ a.point.before b.point = true)⟩

instance : DecidableLT Node := fun a b =>
  inferInstanceAs
    (Decidable (a.method < b.method ∨ (a.method = b.method ∧ a.point.before b.point = true)))

/-- Nodes in ascending order, equal ones side by side. -/
def sort (nodes : List Node) : List Node := nodes.mergeSort fun a b => !decide (b < a)

end Node

/-- Why control goes from one node to another. -/
inductive EdgeKind where
  | entry
  | fallThrough
  | goto
  | ifTrue
  | ifFalse
  | switchCase (value : Int32)
  | switchDefault
  | ret
  deriving DecidableEq, Repr

/-- The text of a kind, without the value of a case. -/
def EdgeKind.text : EdgeKind → String
  | entry => "ENTRY"
  | fallThrough => "FALL_THROUGH"
  | goto => "GOTO"
  | ifTrue => "IF_TRUE"
  | ifFalse => "IF_FALSE"
  | switchCase _ => "SWITCH_CASE"
  | switchDefault => "SWITCH_DEFAULT"
  | ret => "RETURN"

/-- A control-flow graph. -/
structure Cfg where
  method : MethodId
  stmts : Array Stmt
  /-- Source, kind and target of each edge, by source. -/
  edges : List (Node × EdgeKind × Node)
  deriving DecidableEq, Repr

namespace Cfg

/-- The node of a position; past the last statement it is the exit. -/
def nodeAt (method : MethodId) (length index : Nat) : Node :=
  if index < length then .stmt method index else .exit method

/-- Where a statement at a position leads. -/
def exits (method : MethodId) (length index : Nat) (stmt : Stmt) : List (EdgeKind × Node) :=
  let at' := nodeAt method length
  match stmt with
  | .jump target => [(.goto, at' target)]
  | .branch _ target => [(.ifTrue, at' target), (.ifFalse, at' (index + 1))]
  | .switch _ cases default =>
    cases.map (fun (value, target) => (.switchCase value, at' target)) ++
      [(.switchDefault, at' default)]
  | .ret _ => [(.ret, .exit method)]
  | _ => [(.fallThrough, at' (index + 1))]

/-- The graph of a method with the given statements. -/
def ofStmts (method : MethodId) (stmts : Array Stmt) : Cfg where
  method
  stmts
  edges :=
    (.entry method, .entry, nodeAt method stmts.size 0) ::
      stmts.toList.zipIdx.flatMap fun (stmt, index) =>
        (exits method stmts.size index stmt).map (.stmt method index, ·)

/-- The graph of a method of a program. -/
def build (program : Program) (method : MethodId) : Except Fault Cfg := do
  return ofStmts method (← program.getMethod method).stmts

def entry (cfg : Cfg) : Node := .entry cfg.method

def exit (cfg : Cfg) : Node := .exit cfg.method

/-- The entry, the statements in their order, and the exit. -/
def nodes (cfg : Cfg) : List Node :=
  cfg.entry :: (List.range cfg.stmts.size).map (.stmt cfg.method) ++ [cfg.exit]

def contains (cfg : Cfg) (node : Node) : Bool := cfg.nodes.contains node

/-- The statement of a node. -/
def stmt? (cfg : Cfg) (node : Node) : Option Stmt := node.index?.bind (cfg.stmts[·]?)

/-- The edges that leave a node, with their targets. -/
def outEdges (cfg : Cfg) (node : Node) : List (EdgeKind × Node) :=
  cfg.edges.filterMap fun (source, kind, target) =>
    if source = node then some (kind, target) else none

/-- The edges that lead to a node, with their sources. -/
def inEdges (cfg : Cfg) (node : Node) : List (EdgeKind × Node) :=
  cfg.edges.filterMap fun (source, kind, target) =>
    if target = node then some (kind, source) else none

/-- The targets of the edges that leave a node, each once. -/
def succs (cfg : Cfg) (node : Node) : List Node := ((cfg.outEdges node).map (·.2)).eraseDups

/-- The sources of the edges that lead to a node, each once. -/
def preds (cfg : Cfg) (node : Node) : List Node := ((cfg.inEdges node).map (·.2)).eraseDups

end Cfg

end ObjectFlow
