import ObjectFlow.PointsTo.Solver

/-!
# Results of the points-to analysis

Questions to a finished run.  Under contexts they are answered from the tables of the
run; without contexts the answers for all contexts are taken together.
-/

namespace ObjectFlow.PointsTo

/-- A finished run. -/
structure Result where
  state : State
  entries : List MethodId

/-- Why a run gives no result. -/
inductive Failure where
  | config (error : Config.Error)
  | fault (fault : Fault)
  deriving DecidableEq, Repr

/-- Runs the analysis, whatever the settings are. -/
def analyze (program : Program) (config : Config.PointsTo) : Except Fault Result := do
  let state ← State.solve program (.ofConfig config) {}
  return { state, entries := program.entries }

/-- Checks the settings and runs the analysis. -/
def run (program : Program) (config : Config.PointsTo) : Except Failure Result :=
  match config.validate with
  | .error error => .error (.config error)
  | .ok () => (analyze program config).mapError .fault

namespace Result

/-- The pointers of a variable with their contexts and sets. -/
def pointersOf (result : Result) (var : VarId) : List (ContextId × PointsToSet) :=
  result.state.pointers.toList.filterMap fun (pointer, set) =>
    match pointer with
    | .var context v => if v = var then some (context, set) else none
    | _ => none

/-- The contexts under which a variable was seen. -/
def contextsOf (result : Result) (var : VarId) : List ContextId :=
  (result.pointersOf var).map (·.1)

/-- The objects that a variable points to under one context. -/
def csPointsTo (result : Result) (context : ContextId) (var : VarId) : PointsToSet :=
  result.state.pointers.setOf (.var context var)

def staticFieldPointsTo (result : Result) (field : FieldId) : PointsToSet :=
  result.state.pointers.setOf (.staticField field)

def instanceFieldPointsTo (result : Result) (base : CsObjId) (field : FieldId) : PointsToSet :=
  result.state.pointers.setOf (.instanceField base field)

def arrayPointsTo (result : Result) (base : CsObjId) : PointsToSet :=
  result.state.pointers.setOf (.arraySlots base)

/-- The objects that a variable points to under any context. -/
def mergedPointsTo (result : Result) (var : VarId) : PointsToSet :=
  (result.pointersOf var).foldl (fun merged (_, set) => merged.union set) {}

/-- The abstract objects that a variable points to, in ascending order. -/
def pointsTo (result : Result) (var : VarId) : Except Fault (List ObjId) := do
  let objects ← ((result.pointersOf var).flatMap fun (_, set) => set.toList).mapM
    fun object => return (← object.lookup result.state.csObjects.items).object
  return (SortedSet.ofList objects).toList

/-- Whether two variables may point to a common object. -/
def mayAlias (result : Result) (a b : VarId) : Bool :=
  (result.mergedPointsTo a).intersects (result.mergedPointsTo b)

/-- The call graph without contexts. -/
def callGraph (result : Result) : CallGraph Site MethodId :=
  let calls := result.state.calls
  let graph := result.entries.foldl (fun graph entry => (graph.addEntry entry).addReachable entry)
    .empty
  let graph := calls.reachable.items.foldl (fun graph m => graph.addReachable m.method) graph
  calls.edges.items.foldl (fun graph e => graph.addEdge ⟨e.kind, e.site.site, e.callee.method⟩) graph

/-- The methods that are reachable under some context, in ascending order. -/
def reachableMethods (result : Result) : List MethodId :=
  (SortedSet.ofList (result.state.calls.reachable.toList.map CsMethod.method)).toList

/-- The methods that a site may call under some context, in ascending order. -/
def calleesOf (result : Result) (site : Site) : List MethodId :=
  (SortedSet.ofList (result.state.calls.edges.toList.filterMap fun e =>
    if e.site.site = site then some e.callee.method else none)).toList

end Result

end ObjectFlow.PointsTo
