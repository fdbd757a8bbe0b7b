import ObjectFlow.CallGraph.Basic
import ObjectFlow.Iteration
import ObjectFlow.Program.Basic

/-!
# Call targets from the class hierarchy

`dispatch` finds the method that an object of a class runs: the nearest one on the
chain of superclasses that is not abstract.  `callee` resolves a call for a known
receiver, `targets` for every receiver that the hierarchy allows, and
`ofHierarchy` closes the entry methods under `targets`.
-/

namespace ObjectFlow

open Iteration (Turn)

namespace Program

/-- The method found on the chain of superclasses within `steps` steps. -/
def dispatchFrom (program : Program) (subsignature : String) :
    (steps : Nat) → ClassId → Except Fault (Option MethodId)
  | 0, _ => .ok none
  | steps + 1, current => do
    let concrete ←
      match program.declared? current subsignature with
      | none => pure none
      | some id => do
        let method ← program.getMethod id
        pure (if method.isAbstract then none else some id)
    match concrete with
    | some id => .ok (some id)
    | none => do
      let c ← program.getClass current
      match c.superClass with
      | none => .ok none
      | some parent => program.dispatchFrom subsignature steps parent

/-- The nearest method on the chain of superclasses that is not abstract.  No chain is
longer than the table of classes. -/
def dispatch (program : Program) (start : ClassId) (subsignature : String) :
    Except Fault (Option MethodId) :=
  program.dispatchFrom subsignature (program.listing.classes.size + 1) start

/-- The class from which a call looks for its method, for a receiver of the given type.
Arrays have the methods of the class that the call names. -/
def dispatchClass (receiver : Option Ty) (target : MethodRef) : ClassId :=
  (receiver.bind Ty.class?).getD target.declaringClass

/-- The method that a call runs on a receiver of the given type. -/
def callee (program : Program) (receiver : Option Ty) (kind : CallKind) (target : MethodRef) :
    Except Fault (Option MethodId) :=
  match kind with
  | .static => .ok (program.declared? target.declaringClass target.subsignature)
  | .special => program.dispatch target.declaringClass target.subsignature
  | .virtual => program.dispatch (dispatchClass receiver target) target.subsignature
  | .interface => program.dispatch (dispatchClass receiver target) target.subsignature

/-- A walk down the hierarchy: the classes to visit, those visited, and the methods
found there. -/
structure Descent where
  queue : List ClassId
  visited : List ClassId := []
  found : List MethodId := []

/-- The classes and interfaces right below a class. -/
def directSubtypes (program : Program) (c : Class) : List ClassId :=
  if c.isInterface then program.subinterfaces c.id ++ program.implementors c.id
  else program.subclasses c.id

/-- Visits the next class of a walk. -/
def descend (program : Program) (subsignature : String) (walk : Descent) :
    Except Fault (Turn Descent) :=
  match walk.queue with
  | [] => .ok (.done walk)
  | id :: queue =>
    if walk.visited.contains id then .ok (.more { walk with queue })
    else do
      let target ← program.dispatch id subsignature
      let c ← program.getClass id
      let found :=
        match target with
        | some method =>
          if walk.found.contains method then walk.found else walk.found ++ [method]
        | none => walk.found
      return .more {
        queue := queue ++ program.directSubtypes c
        visited := id :: walk.visited
        found }

/-- Every method that an object below a class may run. -/
def overriders (program : Program) (root : ClassId) (subsignature : String) :
    Except Fault (List MethodId) := do
  let walk ← Iteration.settleExcept (program.descend subsignature) (2 * program.listing.size + 2)
    { queue := [root] }
  return walk.found

/-- Every method that a call may run, whatever its receiver. -/
def targets (program : Program) (kind : CallKind) (target : MethodRef) :
    Except Fault (List MethodId) :=
  match kind with
  | .virtual => program.overriders target.declaringClass target.subsignature
  | .interface => program.overriders target.declaringClass target.subsignature
  | kind => do return (← program.callee none kind target).toList

end Program

namespace CallGraph

/-- A call graph under construction, with the methods to visit. -/
structure Survey where
  graph : CallGraph Site MethodId
  queue : List MethodId

/-- Notes the targets of one call. -/
def surveyCall (program : Program) (survey : Survey) (site : Site) (call : Call) :
    Except Fault Survey := do
  let found ← program.targets call.kind call.target
  return {
    graph := found.foldl (fun graph callee => graph.addEdge ⟨call.kind, site, callee⟩) survey.graph
    queue := survey.queue ++ found }

/-- Visits the next method of a survey. -/
def surveyMethod (program : Program) (survey : Survey) : Except Fault (Turn Survey) :=
  match survey.queue with
  | [] => .ok (.done survey)
  | id :: queue =>
    match survey.graph.noteReachable id with
    | (_, false) => .ok (.more { survey with queue })
    | (graph, true) => do
      let method ← program.getMethod id
      let survey : Survey := { graph, queue }
      let survey ← method.callSites.foldlM
        (fun survey (site, call) => surveyCall program survey site call) survey
      return .more survey

/-- The call graph in which every call may run every method that the hierarchy allows. -/
def ofHierarchy (program : Program) : Except Fault (CallGraph Site MethodId) := do
  let start : Survey := {
    graph := program.entries.foldl addEntry .empty
    queue := program.entries }
  let survey ← Iteration.settleExcept (surveyMethod program) (4 * program.listing.size + 4) start
  return survey.graph

end CallGraph

end ObjectFlow
