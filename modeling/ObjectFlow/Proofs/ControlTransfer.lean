import ObjectFlow.Proofs.ControlFlow
import ObjectFlow.Proofs.Program.Items

/-!
# Control-flow graphs are exact

The edges that leave a statement are the ways that control can go from it, in the order in which
the statement names them.  A program has only branches that stay inside their method, so that no
branch is cut short at the exit: each of them leads to the statement that it names.  The edges of
a node can be asked for from both of its sides, and both sides tell of the same edges.
-/

namespace ObjectFlow

/-- Where control can go from a statement, in order, when `next` is the node after it. -/
def Stmt.transfers (method : MethodId) (next : Node) : Stmt → List (EdgeKind × Node)
  | .jump target => [(.goto, .stmt method target)]
  | .branch _ target => [(.ifTrue, .stmt method target), (.ifFalse, next)]
  | .switch _ cases default =>
    cases.map (fun (value, target) => (.switchCase value, .stmt method target)) ++
      [(.switchDefault, .stmt method default)]
  | .ret _ => [(.ret, .exit method)]
  | _ => [(.fallThrough, next)]

/-- The branches of a program stay inside their method. -/
theorem Program.target_lt {program : Program} {id : MethodId} {method : Method} {index : Nat}
    {stmt : Stmt} (hmethod : program.getMethod id = .ok method)
    (hstmt : method.stmts[index]? = some stmt) {target : Nat} (htarget : target ∈ stmt.targets) :
    target < method.stmts.size := by
  have hnone := program.inRange.statement (getMethod_eq_ok_iff.mp hmethod) hstmt
  exact (Stmt.operandDefect?_eq_none_iff.mp hnone).2.1 target htarget

namespace Cfg

variable {method : MethodId} {stmts : Array Stmt}

/-- The node after a position: the next statement, or the exit after the last one. -/
def nodeAfter (method : MethodId) (length index : Nat) : Node :=
  if index + 1 = length then .exit method else .stmt method (index + 1)

theorem nodeAt_of_lt {length index : Nat} (h : index < length) :
    nodeAt method length index = .stmt method index :=
  if_pos h

theorem nodeAt_succ {length index : Nat} (h : index < length) :
    nodeAt method length (index + 1) = nodeAfter method length index := by
  unfold nodeAt nodeAfter
  by_cases hlast : index + 1 = length
  · rw [if_neg (by omega), if_pos hlast]
  · rw [if_pos (by omega), if_neg hlast]

/-- When its branches stay inside the method, a statement leads where it says. -/
theorem exits_eq_transfers {length index : Nat} (hindex : index < length) {stmt : Stmt}
    (htargets : ∀ target ∈ stmt.targets, target < length) :
    exits method length index stmt = stmt.transfers method (nodeAfter method length index) := by
  cases stmt with
  | jump target =>
    have htarget : target < length := htargets target (by simp [Stmt.targets])
    simp [exits, Stmt.transfers, nodeAt_of_lt htarget]
  | branch condition target =>
    have htarget : target < length := htargets target (by simp [Stmt.targets])
    simp [exits, Stmt.transfers, nodeAt_of_lt htarget, nodeAt_succ hindex]
  | switch v cases default =>
    have hdefault : default < length := htargets default (by simp [Stmt.targets])
    have hcases : ∀ item ∈ cases, nodeAt method length item.2 = .stmt method item.2 := by
      intro item hitem
      apply nodeAt_of_lt
      exact htargets item.2 (List.mem_append_left _ (List.mem_map_of_mem hitem))
    simp only [exits, Stmt.transfers, nodeAt_of_lt hdefault]
    congr 1
    refine List.map_congr_left fun item hitem => ?_
    rw [hcases item hitem]
  | ret value => rfl
  | _ => simp [exits, Stmt.transfers, nodeAt_succ hindex]

/-- The graph `cfg` is that of a method with the given statements. -/
structure Exact (method : MethodId) (stmts : Array Stmt) (cfg : Cfg) : Prop where
  nodes : cfg.nodes =
    .entry method :: (List.range stmts.size).map (.stmt method) ++ [.exit method]
  node_count : cfg.nodes.length = stmts.size + 2
  entry : cfg.outEdges (.entry method) =
    [(.entry, if 0 < stmts.size then .stmt method 0 else .exit method)]
  stmt : ∀ (index : Nat) (stmt : Stmt), stmts[index]? = some stmt →
    cfg.outEdges (.stmt method index) =
      stmt.transfers method (nodeAfter method stmts.size index)
  exit_out : cfg.outEdges (.exit method) = []
  entry_in : cfg.inEdges (.entry method) = []
  /-- Both ends of an edge are nodes of the graph. -/
  closed : ∀ source kind target, (kind, target) ∈ cfg.outEdges source →
    source ∈ cfg.nodes ∧ target ∈ cfg.nodes
  /-- Both ends of an edge tell of it, as often as it is there. -/
  count_eq : ∀ source target kind,
    (cfg.outEdges source).count (kind, target) = (cfg.inEdges target).count (kind, source)
  mem_succs : ∀ source target,
    target ∈ cfg.succs source ↔ ∃ kind, (kind, target) ∈ cfg.outEdges source
  mem_preds : ∀ source target, target ∈ cfg.succs source ↔ source ∈ cfg.preds target
  nodup_succs : ∀ node, (cfg.succs node).Nodup
  nodup_preds : ∀ node, (cfg.preds node).Nodup

theorem outEdges_entry (method : MethodId) (stmts : Array Stmt) :
    (ofStmts method stmts).outEdges (.entry method) =
      [(.entry, if 0 < stmts.size then .stmt method 0 else .exit method)] := by
  simp [outEdges, ofStmts, nodeAt, Node.entry, Node.stmt, List.filterMap_flatMap,
    List.filterMap_map]

theorem exact_ofStmts
    (htargets : ∀ (index : Nat) (stmt : Stmt), stmts[index]? = some stmt →
      ∀ target ∈ stmt.targets, target < stmts.size) :
    Exact method stmts (ofStmts method stmts) where
  nodes := rfl
  node_count := length_nodes _
  entry := outEdges_entry method stmts
  stmt index stmt hstmt := by
    have hindex : index < stmts.size := (Array.getElem?_eq_some_iff.mp hstmt).1
    rw [outEdges_stmt hstmt, exits_eq_transfers hindex (htargets index stmt hstmt)]
  exit_out := by
    rw [List.eq_nil_iff_forall_not_mem]
    rintro ⟨kind, target⟩ hedge
    exact ne_exit_of_mem_succs (mem_succs_iff.mpr ⟨kind, mem_outEdges_iff.mp hedge⟩) rfl
  entry_in := by
    rw [List.eq_nil_iff_forall_not_mem]
    rintro ⟨kind, source⟩ hedge
    exact ne_entry_of_mem_succs (mem_succs_iff.mpr ⟨kind, mem_inEdges_iff.mp hedge⟩) rfl
  closed source kind target hedge :=
    mem_nodes_of_mem_succs (mem_succs_iff.mpr ⟨kind, mem_outEdges_iff.mp hedge⟩)
  count_eq source target kind := by rw [count_outEdges, count_inEdges]
  mem_succs source target := by simp only [mem_succs_iff, mem_outEdges_iff]
  mem_preds source target := mem_preds_iff.symm
  nodup_succs := Cfg.nodup_succs _
  nodup_preds node := nodup_eraseDups _

/-- Every method of a program has a graph, and it is exact. -/
theorem build_exact {program : Program} {found : Method}
    (hmethod : program.getMethod method = .ok found) :
    ∃ cfg, build program method = .ok cfg ∧ Exact method found.stmts cfg :=
  ⟨ofStmts method found.stmts, build_of_getMethod hmethod,
    exact_ofStmts fun _ _ hstmt _ htarget => Program.target_lt hmethod hstmt htarget⟩

/-- A method whose first statement can lead back to itself and twice to the last statement, where
the second statement can lead in two ways, too. -/
def dialListing : Listing where
  classes := #[{ id := ⟨0⟩, name := "Dial", superClass := none, interfaces := []
                 isInterface := false, isAbstract := false, methods := [⟨0⟩] }]
  methods := #[{ id := ⟨0⟩, name := "dial", declaringClass := ⟨0⟩, subsignature := "dial(int)"
                 isStatic := true, isAbstract := false, this := none, params := [⟨0⟩]
                 stmts := #[.switch ⟨0⟩ [(1, 0), (2, 2), (3, 2)] 1, .branch (.var ⟨0⟩) 2, .nop] }]
  vars := #[{ id := ⟨0⟩, name := "n", type := .int, method := ⟨0⟩ }]
  entries := [⟨0⟩]

/-- The program of `dialListing`. -/
def dialProgram : Program where
  listing := dialListing
  sound := by decide
  index := Index.ofListing dialListing
  index_eq := rfl

theorem build_exact_dial : ∃ cfg, build dialProgram ⟨0⟩ = .ok cfg ∧
    cfg.outEdges (.stmt ⟨0⟩ 0) = [(.switchCase 1, .stmt ⟨0⟩ 0), (.switchCase 2, .stmt ⟨0⟩ 2),
      (.switchCase 3, .stmt ⟨0⟩ 2), (.switchDefault, .stmt ⟨0⟩ 1)] ∧
    cfg.outEdges (.stmt ⟨0⟩ 1) = [(.ifTrue, .stmt ⟨0⟩ 2), (.ifFalse, .stmt ⟨0⟩ 2)] ∧
    cfg.outEdges (.stmt ⟨0⟩ 2) = [(.fallThrough, .exit ⟨0⟩)] ∧
    (cfg.inEdges (.stmt ⟨0⟩ 2)).count (.ifTrue, .stmt ⟨0⟩ 1) = 1 := by
  have hmethod : dialProgram.getMethod ⟨0⟩ = .ok dialListing.methods[0] := rfl
  obtain ⟨cfg, hbuild, hexact⟩ := build_exact hmethod
  have hbranch : cfg.outEdges (.stmt ⟨0⟩ 1) = [(.ifTrue, .stmt ⟨0⟩ 2), (.ifFalse, .stmt ⟨0⟩ 2)] :=
    hexact.stmt 1 _ rfl
  refine ⟨cfg, hbuild, hexact.stmt 0 _ rfl, hbranch, hexact.stmt 2 _ rfl, ?_⟩
  rw [← hexact.count_eq, hbranch]
  rfl

end Cfg

end ObjectFlow
