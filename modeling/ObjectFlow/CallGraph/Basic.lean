import ObjectFlow.Interner
import ObjectFlow.Program.Statement

/-!
# Call graphs

A call graph lists the methods where runs start, the methods that a run may reach,
and the calls between them, each once and in the order in which it was found.  Beside
the list of calls it keeps the callees of each site and the callers of each method.  The
same graph serves methods and call sites with and without contexts.
-/

namespace ObjectFlow

/-- A call site and one method that it may call. -/
structure CallEdge (σ μ : Type) where
  kind : CallKind
  site : σ
  callee : μ
  deriving DecidableEq, Repr

/-- The ends of an edge. -/
def CallEdge.ends {σ μ : Type} (edge : CallEdge σ μ) : σ × μ := (edge.site, edge.callee)

/-- Edges are told apart by their ends. -/
instance {σ μ : Type} [Key σ] [Key μ] : Key (CallEdge σ μ) :=
  ⟨fun edge => code edge.ends⟩

/-- Values in rows, one row for each owner.  Owners are told apart by their codes. -/
structure Rows (κ α : Type) [Key κ] where
  table : Std.TreeMap (List Nat) (Array α) := {}

namespace Rows

variable {κ α β : Type} [Key κ] {rows : Rows κ α} {items : List β} {owner : β → κ} {value : β → α}

/-- The values of an owner in the order in which they came. -/
def row (rows : Rows κ α) (key : κ) : List α := (rows.table[code key]?.getD #[]).toList

/-- Adds a value at the end of the row of its owner. -/
def add (rows : Rows κ α) (key : κ) (a : α) : Rows κ α :=
  ⟨rows.table.alter (code key) fun row => some ((row.getD #[]).push a)⟩

theorem row_add (rows : Rows κ α) (key other : κ) (a : α) :
    (rows.add key a).row other =
      if code key = code other then rows.row other ++ [a] else rows.row other := by
  simp only [row, add, Std.TreeMap.getElem?_alter, Std.LawfulEqCmp.compare_eq_iff_eq]
  split
  · next hcode => simp [hcode]
  · rfl

/-- Each row has the values of the items of its owner, in the order of the items. -/
def Lists (rows : Rows κ α) (items : List β) (owner : β → κ) (value : β → α) : Prop :=
  ∀ key, rows.row key = items.filterMap fun item =>
    if code (owner item) = code key then some (value item) else none

theorem lists_empty (owner : β → κ) (value : β → α) : ({} : Rows κ α).Lists [] owner value := by
  simp [Lists, row]

theorem Lists.add (h : rows.Lists items owner value) (item : β) :
    (rows.add (owner item) (value item)).Lists (items ++ [item]) owner value := by
  intro key
  rw [row_add, List.filterMap_append, ← h key]
  by_cases hkey : code (owner item) = code key <;> simp [hkey]

end Rows

/-- `σ` are the call sites and `μ` the methods. -/
structure CallGraph (σ μ : Type) [Key σ] [Key μ] where
  entries : Interner μ := .empty
  reachable : Interner μ := .empty
  edges : Interner (CallEdge σ μ) := .empty
  callees : Rows σ μ := {}
  callers : Rows μ σ := {}
  callees_lists : callees.Lists edges.toList CallEdge.site CallEdge.callee := by
    exact Rows.lists_empty _ _
  callers_lists : callers.Lists edges.toList CallEdge.callee CallEdge.site := by
    exact Rows.lists_empty _ _

namespace CallGraph

variable {σ μ : Type} [Key σ] [Key μ]

/-- Nothing was found yet. -/
def empty : CallGraph σ μ := {}

@[simp]
theorem entries_empty : (empty : CallGraph σ μ).entries = .empty := rfl

@[simp]
theorem reachable_empty : (empty : CallGraph σ μ).reachable = .empty := rfl

@[simp]
theorem edges_empty : (empty : CallGraph σ μ).edges = .empty := rfl

/-- Notes a method where runs start. -/
def addEntry (graph : CallGraph σ μ) (method : μ) : CallGraph σ μ :=
  { graph with entries := graph.entries.insert method }

/-- Whether a method was found to be reachable. -/
def contains (graph : CallGraph σ μ) (method : μ) : Bool := graph.reachable.contains method

/-- Notes a reachable method. -/
def addReachable (graph : CallGraph σ μ) (method : μ) : CallGraph σ μ :=
  { graph with reachable := graph.reachable.insert method }

/-- Notes a reachable method, and tells whether it is new. -/
def noteReachable (graph : CallGraph σ μ) (method : μ) : CallGraph σ μ × Bool :=
  if graph.contains method then (graph, false) else (graph.addReachable method, true)

/-- Whether there is an edge, of whatever kind, from a site to a method. -/
def hasEdge (graph : CallGraph σ μ) (site : σ) (callee : μ) : Bool :=
  (graph.edges.findCode? (code (site, callee))).isSome

theorem contains_edges (graph : CallGraph σ μ) (edge : CallEdge σ μ) :
    graph.edges.contains edge = graph.hasEdge edge.site edge.callee := rfl

/-- A new edge is the last one. -/
theorem toList_insert_edge (graph : CallGraph σ μ) {edge : CallEdge σ μ}
    (hnew : ¬ graph.hasEdge edge.site edge.callee) :
    (graph.edges.insert edge).toList = graph.edges.toList ++ [edge] := by
  simp [Interner.toList, Interner.items_insert, contains_edges, hnew]

/-- Notes an edge; of several with the same ends the first one stays. -/
def addEdge (graph : CallGraph σ μ) (edge : CallEdge σ μ) : CallGraph σ μ :=
  if h : graph.hasEdge edge.site edge.callee then graph
  else
    { graph with
      edges := graph.edges.insert edge
      callees := graph.callees.add edge.site edge.callee
      callers := graph.callers.add edge.callee edge.site
      callees_lists := graph.toList_insert_edge h ▸ graph.callees_lists.add edge
      callers_lists := graph.toList_insert_edge h ▸ graph.callers_lists.add edge }

/-- Notes an edge, and tells whether its ends are new. -/
def noteEdge (graph : CallGraph σ μ) (edge : CallEdge σ μ) : CallGraph σ μ × Bool :=
  if graph.hasEdge edge.site edge.callee then (graph, false) else (graph.addEdge edge, true)

/-- The methods that a site may call. -/
def calleesOf (graph : CallGraph σ μ) (site : σ) : List μ := graph.callees.row site

/-- The sites that may call a method. -/
def callersOf (graph : CallGraph σ μ) (callee : μ) : List σ := graph.callers.row callee

end CallGraph

end ObjectFlow
