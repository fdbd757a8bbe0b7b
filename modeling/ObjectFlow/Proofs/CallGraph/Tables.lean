import ObjectFlow.CallGraph.Basic
import ObjectFlow.Proofs.Interner
import ObjectFlow.Proofs.Table

/-!
# The tables of a call graph

One call graph is told by several tables that are filled apart from each other: its lists, the
numbers by which the lists are searched, and the rows of callees and callers.
-/

namespace ObjectFlow

namespace CallEdge

variable {σ μ : Type} [Key σ] [Key μ]

theorem code_eq (edge : CallEdge σ μ) : code edge = code edge.ends := rfl

theorem code_inj [LawfulKey σ] [LawfulKey μ] {a b : CallEdge σ μ} :
    code a = code b ↔ a.ends = b.ends := by
  rw [code_eq, code_eq, LawfulKey.code_inj]

end CallEdge

/-- Where codes leave nothing out, a row has the values of the items of its owner. -/
theorem Rows.Lists.row_eq {κ α β : Type} [Key κ] [LawfulKey κ] [DecidableEq κ] {rows : Rows κ α}
    {items : List β} {owner : β → κ} {value : β → α} (h : rows.Lists items owner value)
    (key : κ) : rows.row key = (items.filter fun item => owner item = key).map value := by
  rw [h key]
  simp only [LawfulKey.code_inj]
  exact filterMap_ite_some (owner · = key) value items

namespace CallGraph

variable {σ μ : Type} [Key σ] [Key μ] {graph : CallGraph σ μ} {site : σ} {callee : μ}

@[simp]
theorem entries_addEdge (graph : CallGraph σ μ) (edge : CallEdge σ μ) :
    (graph.addEdge edge).entries = graph.entries := by
  unfold addEdge
  split <;> rfl

@[simp]
theorem reachable_addEdge (graph : CallGraph σ μ) (edge : CallEdge σ μ) :
    (graph.addEdge edge).reachable = graph.reachable := by
  unfold addEdge
  split <;> rfl

@[simp]
theorem edges_addEdge (graph : CallGraph σ μ) (edge : CallEdge σ μ) :
    (graph.addEdge edge).edges = graph.edges.insert edge := by
  unfold addEdge
  split
  · next hknown =>
    rw [Interner.insert_of_contains ((graph.contains_edges edge).trans hknown)]
  · rfl

section Fold

variable {β : Type} (items : List β) (graph : CallGraph σ μ)

theorem foldl_addEntry (methods : List μ) (graph : CallGraph σ μ) :
    methods.foldl addEntry graph =
      { graph with
        entries := methods.foldl (fun table method => table.insert method) graph.entries } := by
  induction methods generalizing graph with
  | nil => rfl
  | cons method methods ih => exact ih (graph.addEntry method)

theorem foldl_addReachable (f : β → μ) :
    items.foldl (fun graph item => graph.addReachable (f item)) graph =
      { graph with
        reachable := items.foldl (fun table item => table.insert (f item)) graph.reachable } := by
  induction items generalizing graph with
  | nil => rfl
  | cons item items ih => exact ih (graph.addReachable (f item))

theorem entries_foldl_addEdge (f : β → CallEdge σ μ) :
    (items.foldl (fun graph item => graph.addEdge (f item)) graph).entries = graph.entries := by
  induction items generalizing graph with
  | nil => rfl
  | cons item items ih => rw [List.foldl_cons, ih, entries_addEdge]

theorem reachable_foldl_addEdge (f : β → CallEdge σ μ) :
    (items.foldl (fun graph item => graph.addEdge (f item)) graph).reachable =
      graph.reachable := by
  induction items generalizing graph with
  | nil => rfl
  | cons item items ih => rw [List.foldl_cons, ih, reachable_addEdge]

theorem edges_foldl_addEdge (f : β → CallEdge σ μ) :
    (items.foldl (fun graph item => graph.addEdge (f item)) graph).edges =
      items.foldl (fun table item => table.insert (f item)) graph.edges := by
  induction items generalizing graph with
  | nil => rfl
  | cons item items ih => rw [List.foldl_cons, ih, edges_addEdge, List.foldl_cons]

end Fold

/-- A call graph lists an edge between two ends once. -/
theorem nodup_ends (graph : CallGraph σ μ) : (graph.edges.toList.map CallEdge.ends).Nodup := by
  rw [List.Nodup, List.pairwise_map]
  refine graph.edges.pairwise_code_ne.imp fun {a b} hcode hends => hcode ?_
  rw [CallEdge.code_eq, CallEdge.code_eq, hends]

theorem hasEdge_iff_mem_ends [LawfulKey σ] [LawfulKey μ] :
    graph.hasEdge site callee = true ↔ (site, callee) ∈ graph.edges.toList.map CallEdge.ends := by
  rw [hasEdge, Interner.isSome_findCode?_iff, List.mem_map]
  simp only [Interner.toList, Array.mem_toList_iff, CallEdge.code_eq, LawfulKey.code_inj]

/-- An edge between two ends is an edge of some kind. -/
theorem hasEdge_iff [LawfulKey σ] [LawfulKey μ] :
    graph.hasEdge site callee = true ↔ ∃ kind, ⟨kind, site, callee⟩ ∈ graph.edges.items := by
  rw [hasEdge_iff_mem_ends, List.mem_map]
  simp only [Interner.toList, Array.mem_toList_iff]
  constructor
  · rintro ⟨⟨kind, site', callee'⟩, hedge, hends⟩
    cases hends
    exact ⟨kind, hedge⟩
  · rintro ⟨kind, hedge⟩
    exact ⟨_, hedge, rfl⟩

/-- The callees of a site are those of its edges, in the order of the edges. -/
theorem calleesOf_eq [LawfulKey σ] [DecidableEq σ] (graph : CallGraph σ μ) (site : σ) :
    graph.calleesOf site =
      (graph.edges.toList.filter fun edge => edge.site = site).map CallEdge.callee := by
  rw [calleesOf, graph.callees_lists.row_eq]

/-- The callers of a method are the sites of the edges to it, in the order of the edges. -/
theorem callersOf_eq [LawfulKey μ] [DecidableEq μ] (graph : CallGraph σ μ) (method : μ) :
    graph.callersOf method =
      (graph.edges.toList.filter fun edge => edge.callee = method).map CallEdge.site := by
  rw [callersOf, graph.callers_lists.row_eq]

theorem mem_calleesOf_iff_mem_ends [LawfulKey σ] :
    callee ∈ graph.calleesOf site ↔ (site, callee) ∈ graph.edges.toList.map CallEdge.ends := by
  simp [calleesOf, graph.callees_lists site, CallEdge.ends]

/-- A call graph lists a callee of a site once. -/
theorem nodup_calleesOf [LawfulKey σ] (graph : CallGraph σ μ) (site : σ) :
    (graph.calleesOf site).Nodup := by
  rw [calleesOf, graph.callees_lists, List.Nodup, List.pairwise_filterMap]
  apply graph.edges.pairwise_code_ne.imp
  intro a b hcode callee hcallee callee' hcallee' heq
  simp only [Option.ite_none_right_eq_some, Option.some.injEq, LawfulKey.code_inj]
    at hcallee hcallee'
  obtain ⟨⟨hsite, rfl⟩, ⟨hsite', rfl⟩⟩ := hcallee, hcallee'
  have hends : a.ends = b.ends := Prod.ext (hsite.trans hsite'.symm) heq
  apply hcode
  rw [CallEdge.code_eq, CallEdge.code_eq, hends]

end CallGraph

end ObjectFlow
