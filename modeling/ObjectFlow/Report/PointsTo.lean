import ObjectFlow.PointsTo.Codec
import ObjectFlow.PointsTo.Result
import ObjectFlow.Report.Program

/-!
# Reports on the points-to analysis
-/

namespace ObjectFlow.PointsTo

open Iteration (Turn)
open Report (siteText handles)

def callReport : CallGraph CsSite CsMethod → Json := CallGraph.report CsSite.text CsMethod.text

def setReport (set : PointsToSet) : Json := handles set.toList

/-- Pointers with their sets. -/
def pointersReport (pointers : List (Pointer × PointsToSet)) : Json :=
  .ofList (fun (entry : Pointer × PointsToSet) => .array [.str entry.1.text, setReport entry.2])
    pointers

def Pointer.report (pointer : Pointer) : Json :=
  .array [.str pointer.text, .bool pointer.isVar, pointer.toJson]

namespace State

/-- The sizes of the tables. -/
def statistics (state : State) : Json :=
  .obj [
    ("call_edges", .nat state.calls.edges.size),
    ("contexts", .nat state.contexts.size),
    ("objects", .nat state.csObjects.size),
    ("pfg_edges", .nat state.flow.edgeCount),
    ("pointers", .nat state.pointers.size),
    ("processed_entries", .nat state.processed),
    ("reachable_methods", .nat state.calls.reachable.size)]

/-- The pointers that are new or have a new set. -/
def changedPointers (old new : State) : List (Pointer × PointsToSet) :=
  new.pointers.toList.zipIdx.filterMap fun ((pointer, set), index) =>
    if old.pointers.sets[index]? = some set then none else some (pointer, set)

/-- What one step changed. -/
def stepReport (old new : State) (progressed : Bool) : Json :=
  .obj [
    ("changed", pointersReport (changedPointers old new)),
    ("pending", .nat new.worklist.size),
    ("progressed", .bool progressed),
    ("state", .str new.phase.name),
    ("stats", .array [.nat new.processed, .nat new.flow.edgeCount,
      .nat new.calls.reachable.size, .nat new.calls.edges.size, .nat new.pointers.size,
      .nat new.csObjects.size, .nat new.contexts.size])]

/-- Steps at most `limit` times and tells what each step changed, the last one first. -/
def watch (program : Program) (policy : Policy) :
    (limit : Nat) → State → List Json → Except Fault (State × List Json)
  | 0, state, reports => .ok (state, reports)
  | limit + 1, state, reports => do
    match ← state.step program policy with
    | .done next => return (next, stepReport state next false :: reports)
    | .more next => watch program policy limit next (stepReport state next true :: reports)

/-- The pointers with successors, by name. -/
def flowReport (state : State) : Json :=
  let names := state.pointers.names.items
  let name (id : PointerId) : Json := .ofOption (fun (p : Pointer) => .str p.text) names[id.index]?
  .array ((List.range names.size).filterMap fun index =>
    match state.flow.successors ⟨index⟩ with
    | [] => none
    | targets => some (.array [name ⟨index⟩, .ofList name targets]))

/-- The tables of a run together with what its steps changed. -/
def report (state : State) (steps : List Json) : Json :=
  .obj [
    ("call_graph", callReport state.calls),
    ("contexts", .nat state.contexts.size),
    ("objects", .nat state.heap.size),
    ("pfg", state.flowReport),
    ("pfg_counts", .array [.nat state.flow.nodeCount, .nat state.flow.edgeCount]),
    ("pointers", pointersReport state.pointers.toList),
    ("state", .str state.phase.name),
    ("stats", state.statistics),
    ("steps", .array steps)]

end State

/-- The tables of a finished run. -/
def Result.report (result : Result) : Json :=
  let state := result.state
  .obj [
    ("call_graph", callReport state.calls),
    ("contexts", .ofArray (.ofList ContextElem.toJson) state.contexts.table.items),
    ("cs_objs", .ofArray (fun (object : CsObj) =>
      .array [object.context.toJson, object.object.toJson]) state.csObjects.items),
    ("objects", .ofArray (fun (object : Obj) => .array [siteText object.alloc, object.type.toJson])
      state.heap.objects.items),
    ("pointers", pointersReport state.pointers.toList),
    ("stats", state.statistics)]

end ObjectFlow.PointsTo
