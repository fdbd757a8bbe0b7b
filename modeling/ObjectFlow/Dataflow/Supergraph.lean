import ObjectFlow.CallGraph.Basic
import ObjectFlow.ControlFlow

/-!
# The supergraph

The control-flow graphs of all reachable methods, joined at calls.  A call leads to the
entry of each of its callees, and the exit of a callee leads back to every node that
follows the call.  The edge from a call straight to the node that follows it stays, for
what the callee cannot change.

As in the graph of one method, the edges are one list in the order in which they are added.
It stands for a graph that skips an edge when one of its ends is no node, keeps the edges of
each node with the newest first, and turns them round once when they are read.  A call of a
method outside of the graph gives no edge, and both ends of every other edge are nodes, so
that the skip leaves out nothing.
-/

namespace ObjectFlow.Dataflow

inductive SuperEdgeKind where
  | normal
  /-- From a call to what follows it. -/
  | callToReturn
  | call (site : Site) (callee : MethodId)
  | ret (site : Site) (callee : MethodId)
  deriving DecidableEq, Repr

structure SuperEdge where
  source : Node
  target : Node
  kind : SuperEdgeKind
  deriving DecidableEq, Repr

structure Supergraph where
  entries : List MethodId
  /-- The methods with their control-flow graphs, in the order of the call graph. -/
  cfgs : List Cfg
  edges : List SuperEdge
  deriving DecidableEq, Repr

namespace Supergraph

/-- The edges within one method. -/
def innerEdges (cfg : Cfg) : List SuperEdge :=
  cfg.nodes.flatMap fun node =>
    let kind : SuperEdgeKind :=
      if (cfg.stmt? node).any Stmt.isCall then .callToReturn else .normal
    (cfg.succs node).map (⟨node, ·, kind⟩)

/-- The edges between a call and one callee. -/
def edgesOfCall (cfg : Cfg) (site : Site) (callee : MethodId) : List SuperEdge :=
  ⟨.ofSite site, .entry callee, .call site callee⟩ ::
    (cfg.succs (.ofSite site)).map (⟨.exit callee, ·, .ret site callee⟩)

/-- The sites of the calls of a method. -/
def callSites (cfg : Cfg) : List Site :=
  cfg.stmts.toList.zipIdx.filterMap fun (stmt, index) =>
    if stmt.isCall then some ⟨cfg.method, index⟩ else none

/-- The edges between the calls of a method and their callees, as far as these are
among the given methods. -/
def outerEdges (calls : CallGraph Site MethodId) (methods : List MethodId) (cfg : Cfg) :
    List SuperEdge :=
  (callSites cfg).flatMap fun site =>
    ((calls.calleesOf site).filter methods.contains).flatMap (edgesOfCall cfg site)

/-- The supergraph of the methods that a call graph reaches. -/
def build (program : Program) (calls : CallGraph Site MethodId) : Except Fault Supergraph := do
  let methods := calls.reachable.toList
  let cfgs ← methods.mapM (Cfg.build program)
  return {
    entries := calls.entries.toList
    cfgs
    edges := cfgs.flatMap innerEdges ++ cfgs.flatMap (outerEdges calls methods) }

def methods (graph : Supergraph) : List MethodId := graph.cfgs.map Cfg.method

/-- The nodes, method by method. -/
def nodes (graph : Supergraph) : List Node := graph.cfgs.flatMap Cfg.nodes

/-- The control-flow graph of a method. -/
def cfg? (graph : Supergraph) (method : MethodId) : Option Cfg :=
  graph.cfgs.find? fun cfg => cfg.method = method

def contains (graph : Supergraph) (node : Node) : Bool :=
  (graph.cfg? node.method).any fun cfg => cfg.contains node

/-- The statement of a node. -/
def stmt? (graph : Supergraph) (node : Node) : Option Stmt :=
  (graph.cfg? node.method).bind fun cfg => cfg.stmt? node

def isCall (graph : Supergraph) (node : Node) : Bool := (graph.stmt? node).any Stmt.isCall

def inEdges (graph : Supergraph) (node : Node) : List SuperEdge :=
  graph.edges.filter fun edge => edge.target = node

def outEdges (graph : Supergraph) (node : Node) : List SuperEdge :=
  graph.edges.filter fun edge => edge.source = node

/-- The targets of the edges that leave a node, each once. -/
def succs (graph : Supergraph) (node : Node) : List Node :=
  ((graph.outEdges node).map SuperEdge.target).eraseDups

end Supergraph

end ObjectFlow.Dataflow
