import ObjectFlow.CallGraph.Basic
import ObjectFlow.Program.Codec

/-!
# Reports on programs and call graphs

A report is a JSON account of a result for a reader.  Statements and methods are named
by their texts.
-/

namespace ObjectFlow

namespace Report

def handles {kind : Kind} (ids : List (Handle kind)) : Json := .ofList Handle.toJson ids

def handle? {kind : Kind} (id : Option (Handle kind)) : Json := .ofOption Handle.toJson id

def siteText (site : Site) : Json := .str site.text

def siteTexts (sites : List Site) : Json := .ofList siteText sites

/-- How many there are, and whether there are none. -/
def size (size : Nat) : Json := .array [.nat size, .bool (size == 0)]

end Report

open Report (handles handle? siteText siteTexts)

namespace Program

def classReport (program : Program) (c : Class) : Json :=
  .obj [
    ("implementors", handles (program.implementors c.id)),
    ("interface", .bool c.isInterface),
    ("subclasses", handles (program.subclasses c.id)),
    ("subinterfaces", handles (program.subinterfaces c.id)),
    ("super", handle? c.superClass)]

def fieldReport (program : Program) (field : Field) : Json :=
  .obj [
    ("loads", siteTexts (program.staticLoads field.id)),
    ("stores", siteTexts (program.staticStores field.id))]

def methodReport (program : Program) (method : Method) : Json :=
  .obj [
    ("abstract", .bool method.isAbstract),
    ("calls", siteTexts (method.callSites.map (·.1))),
    ("params", .nat method.params.length),
    ("returns", handles ((program.index.returns[method.id.index]?).getD [])),
    ("stmts", .ofList (fun (s : Site × Stmt) =>
      .array [siteText s.1, handle? s.2.writes?, handles s.2.uses]) method.sites)]

def varReport (program : Program) (var : Var) : Json :=
  let uses := program.uses var.id
  .obj [
    ("class", handle? var.type.class?),
    ("int", .bool var.type.holdsInt),
    ("invokes", siteTexts uses.invokes),
    ("load_arrays", siteTexts uses.loadArrays),
    ("load_fields", siteTexts uses.loadFields),
    ("reference", .bool var.type.isReference),
    ("store_arrays", siteTexts uses.storeArrays),
    ("store_fields", siteTexts uses.storeFields)]

/-- What the index of a program knows. -/
def report (program : Program) : Json :=
  let listing := program.listing
  .obj [
    ("classes", .ofArray program.classReport listing.classes),
    ("entries", handles program.entries),
    ("fields", .ofArray program.fieldReport listing.fields),
    ("methods", .ofArray program.methodReport listing.methods),
    ("vars", .ofArray program.varReport listing.vars)]

end Program

/-- The tables of a call graph, in the order in which they were filled. -/
def CallGraph.report {σ μ : Type} [Key σ] [Key μ] (site : σ → String) (method : μ → String)
    (graph : CallGraph σ μ) : Json :=
  .obj [
    ("counts", .array [.nat graph.reachable.size, .nat graph.edges.size]),
    ("edges", .ofArray (fun (edge : CallEdge σ μ) =>
      .array [.str edge.kind.text, .str (site edge.site), .str (method edge.callee)])
      graph.edges.items),
    ("entries", .ofArray (fun m => .str (method m)) graph.entries.items),
    ("reachable", .ofArray (fun m => .str (method m)) graph.reachable.items)]

end ObjectFlow
