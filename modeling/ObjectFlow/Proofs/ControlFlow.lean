import Mathlib.Data.List.Nodup
import ObjectFlow.ControlFlow
import ObjectFlow.Proofs.Program.Tables
import ObjectFlow.Proofs.Table

/-!
# Nodes and edges of control-flow graphs

The graph of a method has a node for each point of the method, and its edges are the
ways that its statements go.
-/

namespace ObjectFlow

namespace Node

/-- The points of a method with the given number of statements. -/
def Inside (length : Nat) : Point → Prop
  | .entry => True
  | .stmt index => index < length
  | .exit => True

theorem site?_eq_some_iff {node : Node} {site : Site} :
    node.site? = some site ↔ node = .ofSite site := by
  obtain ⟨method, point⟩ := node
  obtain ⟨method', index⟩ := site
  cases point <;> simp [site?, index?, ofSite, stmt]

theorem ofSite_injective {a b : Site} (h : ofSite a = ofSite b) : a = b := by
  obtain ⟨method, index⟩ := a
  obtain ⟨method', index'⟩ := b
  simpa [ofSite, stmt] using h

end Node

namespace Cfg

variable {cfg : Cfg} {node source target : Node}

theorem mem_nodes_iff :
    node ∈ cfg.nodes ↔ node.method = cfg.method ∧ Node.Inside cfg.stmts.size node.point := by
  obtain ⟨method, point⟩ := node
  cases point <;>
    simp [nodes, entry, exit, Node.entry, Node.stmt, Node.exit, Node.Inside, eq_comm, and_comm]

theorem nodup_nodes (cfg : Cfg) : cfg.nodes.Nodup := by
  have hstmts : ((List.range cfg.stmts.size).map (Node.stmt cfg.method)).Nodup := by
    refine List.nodup_range.map fun a b h => ?_
    simpa [Node.stmt] using h
  refine List.nodup_append.mpr ⟨List.nodup_cons.mpr ⟨?_, hstmts⟩, List.nodup_singleton _, ?_⟩
  · simp [entry, Node.entry, Node.stmt]
  · simp [entry, exit, Node.entry, Node.stmt, Node.exit]

theorem length_nodes (cfg : Cfg) : cfg.nodes.length = cfg.stmts.size + 2 := by
  simp [nodes]

/-- An edge is listed at its source as often as it is there. -/
theorem count_outEdges (cfg : Cfg) (source target : Node) (kind : EdgeKind) :
    (cfg.outEdges source).count (kind, target) = cfg.edges.count (source, kind, target) := by
  rw [outEdges, List.count_filterMap, List.count]
  congr 1
  funext ⟨source', kind', target'⟩
  by_cases hsource : source' = source <;> simp [hsource]

/-- An edge is listed at its target as often as it is there. -/
theorem count_inEdges (cfg : Cfg) (source target : Node) (kind : EdgeKind) :
    (cfg.inEdges target).count (kind, source) = cfg.edges.count (source, kind, target) := by
  rw [inEdges, List.count_filterMap, List.count]
  congr 1
  funext ⟨source', kind', target'⟩
  by_cases htarget : target' = target <;> simp [htarget, and_comm]

theorem mem_outEdges_iff {kind : EdgeKind} :
    (kind, target) ∈ cfg.outEdges source ↔ (source, kind, target) ∈ cfg.edges := by
  rw [← List.count_pos_iff, count_outEdges, List.count_pos_iff]

theorem mem_inEdges_iff {kind : EdgeKind} :
    (kind, source) ∈ cfg.inEdges target ↔ (source, kind, target) ∈ cfg.edges := by
  rw [← List.count_pos_iff, count_inEdges, List.count_pos_iff]

theorem mem_succs_iff : target ∈ cfg.succs source ↔ ∃ kind, (source, kind, target) ∈ cfg.edges := by
  simp [succs, mem_outEdges_iff]

theorem nodup_succs (cfg : Cfg) (node : Node) : (cfg.succs node).Nodup :=
  nodup_eraseDups _

/-- The sources of the edges to a node are the nodes that lead to it. -/
theorem mem_preds_iff : source ∈ cfg.preds target ↔ target ∈ cfg.succs source := by
  simp [mem_succs_iff, preds, mem_inEdges_iff]

section Build

variable {program : Program} {method : MethodId}

theorem build_eq_ok_iff : build program method = .ok cfg ↔
    ∃ found, program.getMethod method = .ok found ∧ cfg = ofStmts method found.stmts := by
  simp only [build, bind_eq_ok_iff, pure_eq_ok, Except.ok.injEq, @eq_comm _ _ cfg]

theorem build_of_getMethod {found : Method} (h : program.getMethod method = .ok found) :
    build program method = .ok (ofStmts method found.stmts) :=
  build_eq_ok_iff.mpr ⟨found, h, rfl⟩

variable {stmts : Array Stmt}

theorem mem_edges_ofStmts_iff {kind : EdgeKind} :
    (source, kind, target) ∈ (ofStmts method stmts).edges ↔
      (source = .entry method ∧ kind = .entry ∧ target = nodeAt method stmts.size 0) ∨
        ∃ index stmt, stmts[index]? = some stmt ∧ source = .stmt method index ∧
          (kind, target) ∈ exits method stmts.size index stmt := by
  simp only [ofStmts, List.mem_cons, Prod.mk.injEq, List.mem_flatMap, List.mem_map, Prod.exists,
    List.mem_zipIdx_iff_getElem?, Array.getElem?_toList]
  constructor
  · rintro (h | ⟨stmt, index, hstmt, kind', target', hexit, rfl, rfl, rfl⟩)
    · exact .inl h
    · exact .inr ⟨index, stmt, hstmt, rfl, hexit⟩
  · rintro (h | ⟨index, stmt, hstmt, rfl, hexit⟩)
    · exact .inl h
    · exact .inr ⟨stmt, index, hstmt, kind, target, hexit, rfl, rfl, rfl⟩

/-- Control leaves a statement for the nodes of its exits. -/
theorem mem_succs_stmt_iff {index : Nat} {stmt : Stmt} (hstmt : stmts[index]? = some stmt) :
    target ∈ (ofStmts method stmts).succs (.stmt method index) ↔
      ∃ kind, (kind, target) ∈ exits method stmts.size index stmt := by
  rw [mem_succs_iff]
  refine exists_congr fun kind => ?_
  rw [mem_edges_ofStmts_iff]
  constructor
  · rintro (⟨hentry, -⟩ | ⟨index', stmt', hstmt', hsource, hexit⟩)
    · simp [Node.stmt, Node.entry] at hentry
    · obtain rfl : index = index' := by simpa [Node.stmt] using hsource
      rw [hstmt] at hstmt'
      cases hstmt'
      exact hexit
  · exact fun hexit => .inr ⟨index, stmt, hstmt, rfl, hexit⟩

theorem nodeAt_mem_nodes (index : Nat) :
    nodeAt method stmts.size index ∈ (ofStmts method stmts).nodes := by
  rw [mem_nodes_iff]
  unfold nodeAt
  split
  · next hlt => exact ⟨rfl, hlt⟩
  · exact ⟨rfl, trivial⟩

theorem nodeAt_of_getElem? {index : Nat} {stmt : Stmt} (hstmt : stmts[index]? = some stmt) :
    nodeAt method stmts.size index = .stmt method index :=
  if_pos (Array.getElem?_eq_some_iff.mp hstmt).1

/-- A statement leads to the nodes of positions. -/
theorem exists_nodeAt_of_mem_exits {length index : Nat} {stmt : Stmt} {kind : EdgeKind}
    (h : (kind, target) ∈ exits method length index stmt) :
    ∃ next, target = nodeAt method length next := by
  cases stmt with
  | jump next =>
    simp only [exits, List.mem_singleton, Prod.mk.injEq] at h
    exact ⟨_, h.2⟩
  | branch condition next =>
    simp only [exits, List.mem_cons, List.not_mem_nil, or_false, Prod.mk.injEq] at h
    rcases h with ⟨-, h⟩ | ⟨-, h⟩ <;> exact ⟨_, h⟩
  | switch v cases default =>
    simp only [exits, List.mem_append, List.mem_map, List.mem_singleton, Prod.mk.injEq,
      Prod.exists] at h
    rcases h with ⟨_, _, -, -, h⟩ | ⟨-, h⟩
    · exact ⟨_, h.symm⟩
    · exact ⟨_, h⟩
  | ret value =>
    simp only [exits, List.mem_singleton, Prod.mk.injEq] at h
    exact ⟨length, by simp [h.2, nodeAt]⟩
  | _ =>
    simp only [exits, List.mem_singleton, Prod.mk.injEq] at h
    exact ⟨_, h.2⟩

theorem mem_nodes_of_mem_exits {index : Nat} {stmt : Stmt} {kind : EdgeKind}
    (h : (kind, target) ∈ exits method stmts.size index stmt) :
    target ∈ (ofStmts method stmts).nodes := by
  obtain ⟨next, rfl⟩ := exists_nodeAt_of_mem_exits h
  exact nodeAt_mem_nodes next

/-- Of what the items of a list give by their positions, one position is picked out. -/
theorem flatMap_zipIdx_ite {α β : Type} (f : α → List β) (items : List α) (start index : Nat) :
    (items.zipIdx start).flatMap (fun item => if item.2 = index then f item.1 else []) =
      if start ≤ index then (items[index - start]?.map f).getD [] else [] := by
  induction items generalizing start with
  | nil => simp
  | cons first rest ih =>
    rw [List.zipIdx_cons, List.flatMap_cons, ih]
    rcases Nat.lt_trichotomy start index with hlt | rfl | hgt
    · have hnext : index - start = index - (start + 1) + 1 := by omega
      rw [if_neg (by omega), if_pos (by omega), if_pos (by omega), hnext,
        List.getElem?_cons_succ, List.nil_append]
    · rw [if_pos rfl, if_neg (by omega), if_pos (by omega)]
      simp
    · rw [if_neg (by omega), if_neg (by omega), if_neg (by omega), List.nil_append]

/-- The edges that leave a statement are its exits, in their order. -/
theorem outEdges_stmt {index : Nat} {stmt : Stmt} (hstmt : stmts[index]? = some stmt) :
    (ofStmts method stmts).outEdges (.stmt method index) =
      exits method stmts.size index stmt := by
  have hrow : ∀ item : Stmt × Nat,
      ((exits method stmts.size item.2 item.1).map (Node.stmt method item.2, ·)).filterMap
          (fun edge => if edge.1 = Node.stmt method index then some edge.2 else none) =
        if item.2 = index then exits method stmts.size index item.1 else [] := by
    intro item
    by_cases hitem : item.2 = index
    · simp [hitem, List.filterMap_map]
    · simp [hitem, List.filterMap_map, Node.stmt]
  have hentry : Node.entry method ≠ Node.stmt method index := by simp [Node.entry, Node.stmt]
  simp only [outEdges, ofStmts, List.filterMap_cons, if_neg hentry, List.filterMap_flatMap]
  calc stmts.toList.zipIdx.flatMap _
      = stmts.toList.zipIdx.flatMap fun item =>
          if item.2 = index then exits method stmts.size index item.1 else [] := by
        congr 1
        funext item
        exact hrow item
    _ = exits method stmts.size index stmt := by
        rw [flatMap_zipIdx_ite]
        simp [hstmt]

/-- The ends of an edge are nodes of the graph. -/
theorem mem_nodes_of_mem_succs (h : target ∈ (ofStmts method stmts).succs source) :
    source ∈ (ofStmts method stmts).nodes ∧ target ∈ (ofStmts method stmts).nodes := by
  obtain ⟨kind, hedge⟩ := mem_succs_iff.mp h
  rcases mem_edges_ofStmts_iff.mp hedge with ⟨rfl, -, rfl⟩ | ⟨index, stmt, hstmt, rfl, hexit⟩
  · exact ⟨mem_nodes_iff.mpr ⟨rfl, trivial⟩, nodeAt_mem_nodes 0⟩
  · exact ⟨mem_nodes_iff.mpr ⟨rfl, (Array.getElem?_eq_some_iff.mp hstmt).1⟩,
      mem_nodes_of_mem_exits hexit⟩

/-- No edge leads to the entry. -/
theorem ne_entry_of_mem_succs (h : target ∈ (ofStmts method stmts).succs source) :
    target ≠ .entry method := by
  have hnode : ∀ next, nodeAt method stmts.size next ≠ .entry method := by
    intro next
    rw [nodeAt]
    split <;> simp [Node.stmt, Node.exit, Node.entry]
  obtain ⟨kind, hedge⟩ := mem_succs_iff.mp h
  rcases mem_edges_ofStmts_iff.mp hedge with ⟨-, -, rfl⟩ | ⟨index, stmt, -, -, hexit⟩
  · exact hnode 0
  · obtain ⟨next, rfl⟩ := exists_nodeAt_of_mem_exits hexit
    exact hnode next

/-- No edge leaves the exit. -/
theorem ne_exit_of_mem_succs (h : target ∈ (ofStmts method stmts).succs source) :
    source ≠ .exit method := by
  obtain ⟨kind, hedge⟩ := mem_succs_iff.mp h
  rcases mem_edges_ofStmts_iff.mp hedge with ⟨rfl, -, -⟩ | ⟨index, stmt, -, rfl, -⟩
  · simp [Node.entry, Node.exit]
  · simp [Node.stmt, Node.exit]

theorem mem_succs_entry_iff :
    target ∈ (ofStmts method stmts).succs (.entry method) ↔
      target = nodeAt method stmts.size 0 := by
  simp [mem_succs_iff, mem_edges_ofStmts_iff, Node.entry, Node.stmt]

end Build

end Cfg

end ObjectFlow
