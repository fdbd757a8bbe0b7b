import ObjectFlow.PointsTo.Pointer
import ObjectFlow.Queue

/-!
# The pointer flow graph and the worklist

An edge says that everything its source points to, its target points to as well.  The
worklist holds the objects that are still to be added to a pointer, in the order in
which they came.
-/

namespace ObjectFlow.PointsTo

/-- The edges between pointers, each once, in the order in which they were added. -/
structure FlowGraph where
  edges : Interner (PointerId × PointerId) := .empty
  /-- The targets of each source, by its number. -/
  targets : Std.TreeMap Nat (Array PointerId) := {}
  /-- The targets of a source are those of its edges, in the order of the edges. -/
  targets_eq : ∀ source : PointerId, (targets[source.index]?.getD #[]).toList =
    edges.toList.filterMap fun (a, b) => if a = source then some b else none := by
      simp [Interner.toList]

namespace FlowGraph

/-- The graph without edges. -/
def empty : FlowGraph := {}

@[simp]
theorem edges_empty : empty.edges = .empty := rfl

def edgeCount (graph : FlowGraph) : Nat := graph.edges.size

def hasEdge (graph : FlowGraph) (source target : PointerId) : Bool :=
  graph.edges.contains (source, target)

theorem targets_eq_push (graph : FlowGraph) {source target : PointerId}
    (hnew : ¬ graph.hasEdge source target) (origin : PointerId) :
    ((graph.targets.alter source.index fun row =>
        some ((row.getD #[]).push target))[origin.index]?.getD #[]).toList =
      (graph.edges.insert (source, target)).toList.filterMap fun (a, b) =>
        if a = origin then some b else none := by
  have hitems : (graph.edges.insert (source, target)).toList =
      graph.edges.toList ++ [(source, target)] := by
    simp only [hasEdge] at hnew
    simp [Interner.toList, Interner.items_insert, hnew]
  rw [hitems, List.filterMap_append, ← graph.targets_eq origin, Std.TreeMap.getElem?_alter]
  simp only [Std.LawfulEqCmp.compare_eq_iff_eq]
  by_cases hsource : source = origin
  · subst hsource
    simp
  · have hindex : ¬ source.index = origin.index := fun heq => hsource (by
      cases source
      cases origin
      exact congrArg Handle.mk heq)
    simp [hindex, hsource]

def addEdge (graph : FlowGraph) (source target : PointerId) : FlowGraph :=
  if h : graph.hasEdge source target then graph
  else
    { edges := graph.edges.insert (source, target)
      targets := graph.targets.alter source.index fun row => some ((row.getD #[]).push target)
      targets_eq := graph.targets_eq_push h }

/-- The targets of the edges of a pointer. -/
def successors (graph : FlowGraph) (source : PointerId) : List PointerId :=
  (graph.targets[source.index]?.getD #[]).toList

/-- The number of pointers with an edge. -/
def nodeCount (graph : FlowGraph) : Nat :=
  (Interner.ofList (graph.edges.toList.flatMap fun (a, b) => [a, b])).size

end FlowGraph

/-- Objects on their way to pointers. -/
abbrev Worklist := Queue (PointerId × PointsToSet)

end ObjectFlow.PointsTo
