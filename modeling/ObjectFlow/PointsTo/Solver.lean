import ObjectFlow.CallGraph.Hierarchy
import ObjectFlow.PointsTo.Context
import ObjectFlow.PointsTo.FlowGraph
import ObjectFlow.PointsTo.Heap

/-!
# The points-to solver

The solver finds out together what pointers point to and which methods are reachable.
It starts from the entry methods.  A method that becomes reachable contributes its
allocations, copies, static accesses and static calls at once.  After that each step
takes one worklist entry: the objects that are new to its pointer flow on along the
edges of the flow graph, and when the pointer is a variable, each new object opens the
accesses and calls that go through that variable.  What an object is as the receiver of
calls is looked up once, when it opens them; tables only grow, so that it does not change
until the calls are done.

One step can make a whole tree of methods reachable.  Its work is a stack of tasks;
`perform` does one task and says which tasks replace it.
-/

namespace ObjectFlow.PointsTo

open Iteration (Turn)

/-- How far a run is. -/
inductive Phase where
  /-- Nothing was done yet. -/
  | starting
  /-- The worklist is being emptied. -/
  | running
  | done
  deriving DecidableEq, Repr

/-- What the solver knows. -/
structure State where
  phase : Phase := .starting
  heap : Heap := {}
  contexts : Contexts := .initial
  csObjects : Interner CsObj := .empty
  pointers : Pointers := .empty
  flow : FlowGraph := .empty
  worklist : Worklist := {}
  calls : CallGraph CsSite CsMethod := .empty
  /-- The number of worklist entries that were taken. -/
  processed : Nat := 0

/-- A piece of work within one step. -/
inductive Task where
  /-- A method may run under a context. -/
  | reach (method : CsMethod)
  /-- A statement of a reachable method, as far as it needs no object. -/
  | execute (context : ContextId) (site : Site) (stmt : Stmt)
  /-- What `source` points to, `target` points to as well. -/
  | connect (source target : Pointer)
  /-- A load or store goes through a variable that points to `object`. -/
  | access (context : ContextId) (object : CsObjId) (site : Site)
  /-- A call goes through a variable that points to `object`, a receiver of the given type. -/
  | dispatch (context : ContextId) (object : CsObjId) (receiver : Receiver) (type : Ty)
      (site : Site)
  /-- A call may run a method. -/
  | link (kind : CallKind) (site : CsSite) (callee : CsMethod)
  deriving DecidableEq, Repr

namespace State

/-- Makes sure that a pointer has a handle. -/
def insertPointer (state : State) (pointer : Pointer) : State :=
  { state with pointers := state.pointers.insert pointer }

/-- Puts objects on the worklist for a pointer. -/
def push (state : State) (target : PointerId) (objects : PointsToSet) : State :=
  { state with worklist := state.worklist.push (target, objects) }

/-- Puts one object on the worklist for a pointer. -/
def offer (state : State) (target : Pointer) (object : CsObjId) : State :=
  let state := state.insertPointer target
  state.push (state.pointers.idOf target) (.singleton object)

/-- Adds an edge between two pointers.  A new edge carries at once what its source
points to. -/
def connect (state : State) (source target : Pointer) : Except Fault State := do
  let state := (state.insertPointer source).insertPointer target
  let sourceId := state.pointers.idOf source
  let targetId := state.pointers.idOf target
  if state.flow.hasEdge sourceId targetId then return state
  let objects ← state.pointers.getSet sourceId
  let state := { state with flow := state.flow.addEdge sourceId targetId }
  return if objects.isEmpty then state else state.push targetId objects

/-- The abstract object of an allocation under a context, offered to a variable. -/
def allocate (policy : Policy) (state : State) (context : ContextId) (site : Site)
    (lhs : VarId) (type : Ty) : Except Fault State := do
  let (heap, object) := state.heap.objFor site type
  let (contexts, heapContext) ← policy.heapContext state.contexts context
  let csObject : CsObj := ⟨heapContext, object⟩
  let id : CsObjId := ⟨state.csObjects.numberOf csObject⟩
  let state := { state with heap, contexts, csObjects := state.csObjects.insert csObject }
  return state.offer (.var context lhs) id

/-- The receiver that an object is, with its type. -/
def receiver (program : Program) (state : State) (object : CsObjId) :
    Except Fault (Receiver × Ty) := do
  let csObj ← object.lookup state.csObjects.items
  let obj ← state.heap.get csObj.object
  let container ← program.getMethod obj.alloc.method
  return (⟨csObj.context, csObj.object, container.declaringClass⟩, obj.type)

/-- The accesses and calls that an object opens when a variable points to it.  Its receiver
is looked up once, also when no call goes through the variable. -/
def openings (program : Program) (state : State) (context : ContextId) (var : VarId)
    (object : CsObjId) : Except Fault (List Task) := do
  let (receiver, type) ← state.receiver program object
  let uses := program.uses var
  let accesses := uses.loadFields ++ uses.storeFields ++ uses.loadArrays ++ uses.storeArrays
  return accesses.map (.access context object) ++
    uses.invokes.map (.dispatch context object receiver type)

/-- The tasks that objects open which are new to a pointer. -/
def opened (program : Program) (state : State) (pointer : Pointer) (new : PointsToSet) :
    Except Fault (List Task) :=
  match pointer with
  | .var context var => do
    return (← new.toList.mapM (state.openings program context var)).flatten
  | _ => return []

end State

/-- The bindings of a call: arguments to parameters, and returned variables to the
result. -/
def bindings (program : Program) (site : CsSite) (callee : CsMethod) :
    Except Fault (List Task) := do
  let stmt ← program.getStmt site.site
  match stmt.call? with
  | none => return []
  | some call => do
    let method ← program.getMethod callee.method
    let returned ← program.returnVars callee.method
    let args := (call.args.zip method.params).map fun (arg, param) =>
      Task.connect (.var site.context arg) (.var callee.context param)
    let results := call.result.toList.flatMap fun result =>
      returned.map fun value =>
        Task.connect (.var callee.context value) (.var site.context result)
    return args ++ results

/-- The call of a statement on an object, with the receiver that the object is and its type. -/
def dispatchCall (program : Program) (policy : Policy) (state : State) (context : ContextId)
    (object : CsObjId) (receiver : Receiver) (type : Ty) (site : Site) (call : Call) :
    Except Fault (State × List Task) := do
  match ← program.callee (some type) call.kind call.target with
  | none => return (state, [])
  | some callee => do
    let (contexts, calleeContext) ←
      policy.instanceContext state.contexts context site receiver
    let state := { state with contexts }
    let method ← program.getMethod callee
    let state :=
      match method.this with
      | some this => state.offer (.var calleeContext this) object
      | none => state
    return (state, [.link call.kind ⟨context, site⟩ ⟨calleeContext, callee⟩])

/-- Does one task; the tasks in the answer take its place. -/
def perform (program : Program) (policy : Policy) (state : State) :
    Task → Except Fault (State × List Task)
  | .reach method =>
    match state.calls.noteReachable method with
    | (_, false) => return (state, [])
    | (calls, true) => do
      let body ← program.getMethod method.method
      return ({ state with calls },
        body.sites.map fun (site, stmt) => .execute method.context site stmt)
  | .execute context site (.alloc lhs type) => do
    return (← state.allocate policy context site lhs type, [])
  | .execute context _ (.copy lhs rhs) =>
    return (state, [.connect (.var context rhs) (.var context lhs)])
  | .execute context _ (.loadField lhs none field) =>
    return (state, [.connect (.staticField field) (.var context lhs)])
  | .execute context _ (.storeField none field rhs) =>
    return (state, [.connect (.var context rhs) (.staticField field)])
  | .execute context site (.invoke call) =>
    if call.isStatic then do
      match ← program.callee none call.kind call.target with
      | none => return (state, [])
      | some callee => do
        let (contexts, calleeContext) ← policy.staticContext state.contexts context site
        return ({ state with contexts }, [.link call.kind ⟨context, site⟩ ⟨calleeContext, callee⟩])
    else return (state, [])
  | .execute _ _ _ => return (state, [])
  | .connect source target => do
    return (← state.connect source target, [])
  | .access context object site => do
    match ← program.getStmt site with
    | .loadField lhs _ field =>
      return (state, [.connect (.instanceField object field) (.var context lhs)])
    | .storeField _ field rhs =>
      return (state, [.connect (.var context rhs) (.instanceField object field)])
    | .loadArray lhs _ _ =>
      return (state, [.connect (.arraySlots object) (.var context lhs)])
    | .storeArray _ _ rhs =>
      return (state, [.connect (.var context rhs) (.arraySlots object)])
    | _ => return (state, [])
  | .dispatch context object receiver type site => do
    match (← program.getStmt site).call? with
    | some call => dispatchCall program policy state context object receiver type site call
    | none => return (state, [])
  | .link kind site callee =>
    match state.calls.noteEdge ⟨kind, site, callee⟩ with
    | (_, false) => return (state, [])
    | (calls, true) => do
      return ({ state with calls }, .reach callee :: (← bindings program site callee))

/-- Does the first task of a stack. -/
def performNext (program : Program) (policy : Policy) :
    State × List Task → Except Fault (Turn (State × List Task))
  | (state, []) => .ok (.done (state, []))
  | (state, task :: rest) => do
    let (state, tasks) ← perform program policy state task
    return .more (state, tasks ++ rest)

/-- The bound on the bursts of any loop of the solver.  The number of contexts is at
most exponential in this bound, and the number of steps polynomial in it. -/
def rounds (program : Program) (policy : Policy) : Nat :=
  16 * (policy.strategy.depth + 2) * (program.listing.size + 2)

/-- Does all tasks of a stack, and those that they lead to. -/
def performAll (program : Program) (policy : Policy) (state : State) (tasks : List Task) :
    Except Fault State := do
  let (state, _) ← Iteration.settleExcept (performNext program policy) (rounds program policy)
    (state, tasks)
  return state

/-- Adds objects to a pointer, sends the new ones along its edges, and lists the tasks
that they open. -/
def propagate (program : Program) (state : State) (id : PointerId) (objects : PointsToSet) :
    Except Fault (State × List Task) := do
  let new ← state.pointers.newObjects id objects
  if new.isEmpty then return (state, [])
  let pointer ← state.pointers.get id
  let state := { state with pointers := state.pointers.add id new }
  let state := (state.flow.successors id).foldl (fun state target => state.push target new) state
  return (state, ← state.opened program pointer new)

namespace State

/-- Makes the entry methods reachable. -/
def start (program : Program) (policy : Policy) (state : State) : Except Fault State := do
  let entries := program.entries.map fun entry => (⟨Contexts.root, entry⟩ : CsMethod)
  let state := { state with calls := entries.foldl CallGraph.addEntry state.calls }
  let state ← performAll program policy state (entries.map .reach)
  return { state with phase := .running }

/-- One step of a run: the start, or one worklist entry.  The run is over when the
worklist is empty. -/
def step (program : Program) (policy : Policy) (state : State) : Except Fault (Turn State) :=
  match state.phase with
  | .starting => do return .more (← state.start program policy)
  | .running =>
    match state.worklist.pop? with
    | none => return .done { state with phase := .done }
    | some ((id, objects), worklist) => do
      let (state, tasks) ← propagate program { state with worklist } id objects
      let state ← performAll program policy state tasks
      return .more { state with processed := state.processed + 1 }
  | .done => return .done state

/-- Steps until the run is over. -/
def solve (program : Program) (policy : Policy) (state : State) : Except Fault State :=
  Iteration.settleExcept (step program policy) (rounds program policy) state

end State

end ObjectFlow.PointsTo
