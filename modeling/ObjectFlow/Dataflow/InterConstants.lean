import ObjectFlow.Dataflow.Constants
import ObjectFlow.Dataflow.HeapAccess
import ObjectFlow.Dataflow.Interprocedural

/-!
# Constant propagation through calls and the heap

Facts flow over the supergraph.  A call binds arguments to parameters, and the returned
values to its result; everything else that the caller knows passes beside the callee.
With points-to facts, a load takes the values of all stores that it may meet, and a
store whose fact changed has those loads visited again.
-/

namespace ObjectFlow.Dataflow.InterConstants

/-- A store that a load may meet: its node, and the variables with the position (for
arrays) and with the stored value. -/
structure StoreRef where
  node : Node
  slot : Option VarId
  value : VarId

/-- A load that a store may meet: its node, and the variable with the position (for
arrays). -/
structure LoadRef where
  node : Node
  slot : Option VarId

/-- The stores among the given sites. -/
def storeRefs (program : Program) (sites : List Site) : Except Fault (List StoreRef) := do
  let refs ← sites.mapM fun site => do
    match ← program.getStmt site with
    | .storeField _ _ rhs => return some ⟨.ofSite site, none, rhs⟩
    | .storeArray _ index rhs => return some ⟨.ofSite site, some index, rhs⟩
    | _ => return none
  return refs.filterMap id

/-- The loads among the given sites. -/
def loadRefs (program : Program) (sites : List Site) : Except Fault (List LoadRef) := do
  let refs ← sites.mapM fun site => do
    match ← program.getStmt site with
    | .loadField _ _ _ => return some ⟨.ofSite site, none⟩
    | .loadArray _ _ index => return some ⟨.ofSite site, some index⟩
    | _ => return none
  return refs.filterMap id

/-- The value that one store gives to a load, where `position` is that of the load (for
arrays). -/
def storedValue (facts : Facts Fact) (position : Option Value) (store : StoreRef) : Value :=
  match facts.after.get? store.node with
  | none => .undefined
  | some fact =>
    match store.slot, position with
    | some slot, some position =>
      if position.mayEqual (fact.get slot) then fact.get store.value else .undefined
    | _, _ => fact.get store.value

/-- The value that a load takes from all its stores. -/
def loadedValue (facts : Facts Fact) (position : Option Value) (stores : List StoreRef) : Value :=
  stores.foldl (fun value store => value.meet (storedValue facts position store)) .undefined

/-- Whether a store at a position, if it is one in an array, concerns a load. -/
def concerns (facts : Facts Fact) (position : Option Value) (load : LoadRef) : Bool :=
  match load.slot, position with
  | some slot, some position =>
    position.mayEqual (((facts.before.get? load.node).getD {}).get slot)
  | _, _ => true

/-- What a statement does to a fact. -/
def transferStmt (program : Program) (aliases : HeapAliases) (site : Site) (stmt : Stmt) :
    Except Fault (Facts Fact → Fact → Fact) := do
  let tracked ← Constants.tracksWritten program stmt
  match stmt with
  | .loadField lhs base field =>
    if tracked then do
      let sites := if base.isNone then program.staticStores field else aliases.partnersOf site
      let stores ← storeRefs program sites
      return fun facts fact => fact.update lhs (loadedValue facts none stores)
    else return fun _ fact => fact
  | .loadArray lhs _ index =>
    if tracked then do
      let stores ← storeRefs program (aliases.partnersOf site)
      return fun facts fact => fact.update lhs (loadedValue facts (some (fact.get index)) stores)
    else return fun _ fact => fact
  | stmt => return fun _ => Constants.transferStmt tracked stmt

/-- What a node does to a fact.  Calls, entries and exits change nothing. -/
def transfer (program : Program) (config : Config.Dataflow) (aliases : HeapAliases)
    (node : Node) : Except Fault (Facts Fact → Fact → Fact) :=
  match node.site? with
  | none => return fun _ => id
  | some site => do
    let stmt ← program.getStmt site
    if stmt.isCall then return fun _ => id
    else if config.aliasAware then transferStmt program aliases site stmt
    else do
      let tracked ← Constants.tracksWritten program stmt
      return fun _ => Constants.transferStmt tracked stmt

/-- The loads that have to be visited again when the fact at a node changed. -/
def dependents (program : Program) (config : Config.Dataflow) (aliases : HeapAliases)
    (node : Node) : Except Fault (Facts Fact → Fact → List Node) :=
  match node.site? with
  | none => return fun _ _ => []
  | some site => do
    let stmt ← program.getStmt site
    if !config.aliasAware then return fun _ _ => []
    else
      match stmt with
      | .storeField none field _ => do
        let nodes := (program.staticLoads field).map Node.ofSite
        return fun _ _ => nodes
      | .storeField (some _) _ _ => do
        let nodes := (aliases.partnersOf site).map Node.ofSite
        return fun _ _ => nodes
      | .storeArray _ index _ => do
        let loads ← loadRefs program (aliases.partnersOf site)
        return fun facts fact =>
          (loads.filter (concerns facts (some (fact.get index)))).map LoadRef.node
      | _ => return fun _ _ => []

/-- The variable that takes the result of a call. -/
def resultOf (program : Program) (site : Site) : Except Fault (Option VarId) := do
  return (← program.getStmt site).call?.bind Call.result

/-- What an edge does to a fact. -/
def along (program : Program) (edge : SuperEdge) : Except Fault (Fact → Fact) :=
  match edge.kind with
  | .normal => return id
  | .callToReturn => do
    match edge.source.site? with
    | none => return id
    | some site => do
      match ← resultOf program site with
      | some result => return fun fact => fact.remove result
      | none => return id
  | .call site callee => do
    let args := ((← program.getStmt site).call?.map Call.args).getD []
    let params := (← program.getMethod callee).params
    return fun fact =>
      (args.zip params).foldl (fun bound (arg, param) => bound.update param (fact.get arg)) {}
  | .ret site callee => do
    match ← resultOf program site with
    | none => return fun _ => {}
    | some result => do
      let tracked ← Constants.tracks program result
      let returned ← program.returnVars callee
      return fun fact =>
        if tracked then
          ({} : Fact).update result
            (returned.foldl (fun value var => value.meet (fact.get var)) .undefined)
        else {}

/-- The equations over a supergraph. -/
def problem (program : Program) (config : Config.Dataflow) (aliases : HeapAliases)
    (graph : Supergraph) : Except Fault (Interprocedural.Problem Fact) := do
  let nodes := graph.nodes
  let edges ← nodes.mapM fun node => do
    return (node, ← (graph.inEdges node).mapM fun edge =>
      return (edge.source, ← along program edge))
  let transfers ← nodes.mapM fun node => return (node, ← transfer program config aliases node)
  let dependents ← nodes.mapM fun node =>
    return (node, ← dependents program config aliases node)
  let boundary ← (graph.entries.filter graph.methods.contains).mapM fun method =>
    return (Node.entry method, ← Constants.boundaryFact program method)
  return {
    nodes
    inEdges := fun node => (edges.lookup node).getD []
    succs := graph.succs
    boundary
    initial := {}
    meet := Fact.meetInto
    transfer := fun node => (transfers.lookup node).getD fun _ => id
    dependents := fun node => (dependents.lookup node).getD fun _ _ => [] }

/-- Solves the equations over a supergraph. -/
def solve (program : Program) (config : Config.Dataflow) (aliases : HeapAliases)
    (graph : Supergraph) : Except Fault (Interprocedural.Progress Fact) := do
  let problem ← problem program config aliases graph
  return problem.solve (8 * program.listing.size + 16)

/-- The supergraph of a points-to result and the accesses that may meet in it. -/
def prepare (program : Program) (config : Config.Dataflow) (result : PointsTo.Result) :
    Except Fault (Supergraph × HeapAliases) := do
  let graph ← Supergraph.build program result.callGraph
  let aliases ← if config.aliasAware then HeapAliases.build graph result else pure {}
  return (graph, aliases)

/-- The facts before and after every node, from a points-to result. -/
def analyze (program : Program) (config : Config.Dataflow) (result : PointsTo.Result) :
    Except Fault (Facts Fact) := do
  let (graph, aliases) ← prepare program config result
  return (← solve program config aliases graph).facts

end ObjectFlow.Dataflow.InterConstants
