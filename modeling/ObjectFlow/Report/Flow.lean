import ObjectFlow.Dataflow.Constants
import ObjectFlow.Dataflow.Supergraph
import ObjectFlow.Report.Program

/-!
# Reports on control flow and dataflow
-/

namespace ObjectFlow

open Report (handles)

namespace Report

def nodeText (node : Node) : Json := .str node.text

def nodeTexts (nodes : List Node) : Json := .ofList nodeText nodes

end Report

open Report (nodeText nodeTexts)

/-- The text of an edge kind with the value of a case. -/
def EdgeKind.report : EdgeKind → Json
  | .switchCase value => .str ("SWITCH_CASE " ++ toString value.toInt)
  | kind => .str kind.text

namespace Cfg

def edgesReport (edges : List (EdgeKind × Node)) : Json :=
  .ofList (fun (edge : EdgeKind × Node) => .array [edge.1.report, nodeText edge.2]) edges

def nodeReport (cfg : Cfg) (n : Node) : Json :=
  .obj [
    ("in", edgesReport (cfg.inEdges n)),
    ("node", nodeText n),
    ("out", edgesReport (cfg.outEdges n)),
    ("preds", nodeTexts (cfg.preds n)),
    ("succs", nodeTexts (cfg.succs n))]

/-- The nodes and edges of a control-flow graph; the node past the last statement is
none of them. -/
def report (cfg : Cfg) : Json :=
  let past := Node.stmt cfg.method cfg.stmts.size
  .obj [
    ("count", .nat cfg.nodes.length),
    ("entry", nodeText cfg.entry),
    ("exit", nodeText cfg.exit),
    ("nodes", .ofList cfg.nodeReport cfg.nodes),
    ("past_end", .array [.bool (cfg.contains past), .nat (cfg.outEdges past).length])]

end Cfg

namespace Dataflow

def Fact.report (fact : Fact) : Json :=
  .ofList (fun (entry : VarId × Value) => .array [entry.1.toJson, .str entry.2.text]) fact.entries

/-- The facts before and after each of the given nodes. -/
def Facts.report {f : Type} (fact : f → Json) (facts : Facts f) (nodes : List Node) : Json :=
  .ofList (fun n => .array [nodeText n, .ofOption fact (facts.before.get? n),
    .ofOption fact (facts.after.get? n)]) nodes

def SuperEdgeKind.report : SuperEdgeKind → Json
  | .normal => .str "Normal"
  | .callToReturn => .str "CallToReturn"
  | .call site method => .str ("Call " ++ site.text ++ " " ++ method.text)
  | .ret site method => .str ("Return " ++ site.text ++ " " ++ method.text)

namespace Supergraph

def nodeReport (graph : Supergraph) (n : Node) : Json :=
  .obj [
    ("call", .bool (graph.isCall n)),
    ("in", .ofList (fun (edge : SuperEdge) => .array [edge.kind.report, nodeText edge.source])
      (graph.inEdges n)),
    ("node", nodeText n),
    ("out", .ofList (fun (edge : SuperEdge) => .array [edge.kind.report, nodeText edge.target])
      (graph.outEdges n)),
    ("succs", nodeTexts (graph.succs n))]

/-- The nodes and edges of a supergraph, and the ends of its methods. -/
def report (graph : Supergraph) : Json :=
  .obj [
    ("counts", .array [.nat graph.nodes.length, .nat graph.edges.length]),
    ("ends", .ofList (fun (cfg : Cfg) =>
      .array [nodeText cfg.entry, nodeText cfg.exit, .nat cfg.nodes.length]) graph.cfgs),
    ("entries", handles graph.entries),
    ("methods", handles graph.methods),
    ("nodes", .ofList graph.nodeReport graph.nodes)]

end Supergraph

end Dataflow

end ObjectFlow
