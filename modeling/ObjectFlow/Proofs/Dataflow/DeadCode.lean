import Mathlib.Data.List.Perm.Subperm
import ObjectFlow.Dataflow.DeadCode
import ObjectFlow.Proofs.ControlFlow
import ObjectFlow.Proofs.Iteration

/-!
# The walk for dead code

The walk goes from the entry along the edges that the constants leave open.  It reaches a set
of nodes that holds the entry and every node to which control goes from a node of the set.
The statements that are not dead are those of reached nodes that are kept.
-/

namespace ObjectFlow.Dataflow.DeadCode

variable {cfg : Cfg} {constants : Facts Fact} {live : Facts (SortedSet VarId)}

theorem eraseDups_sublist {α : Type} [BEq α] (items : List α) :
    items.eraseDups.Sublist items := by
  induction hlength : items.length using Nat.strong_induction_on generalizing items with
  | _ length ih =>
    cases items with
    | nil => simp
    | cons a rest =>
      have hfilter : (rest.filter fun b => !b == a).Sublist rest := List.filter_sublist
      rw [List.eraseDups_cons]
      apply List.Sublist.cons_cons
      apply List.Sublist.trans _ hfilter
      exact ih _ (hlength ▸ Nat.lt_succ_of_le hfilter.length_le) _ rfl

/-- Control goes along edges. -/
theorem follow_sublist (node : Node) :
    (follow cfg constants live node).1.Sublist ((cfg.outEdges node).map (·.2)) := by
  have hfilter : ∀ p : EdgeKind × Node → Bool,
      (((cfg.outEdges node).filter p).map (·.2)).Sublist ((cfg.outEdges node).map (·.2)) :=
    fun p => List.filter_sublist.map _
  simp only [follow]
  split
  · exact eraseDups_sublist _
  · simp only [takenBranch]
    split
    · exact hfilter _
    · exact List.Sublist.refl _
  · simp only [takenSwitch]
    split
    · exact (List.take_sublist _ _).trans (hfilter _)
    · exact List.Sublist.refl _
  · exact eraseDups_sublist _

theorem length_follow_le (node : Node) :
    (follow cfg constants live node).1.length ≤ cfg.edges.length := by
  calc (follow cfg constants live node).1.length
      ≤ ((cfg.outEdges node).map (·.2)).length := (follow_sublist node).length_le
    _ = (cfg.outEdges node).length := List.length_map _
    _ ≤ cfg.edges.length := List.length_filterMap_le _ _

theorem mem_succs_of_mem_follow {node next : Node}
    (h : next ∈ (follow cfg constants live node).1) : next ∈ cfg.succs node :=
  List.mem_eraseDups.mpr ((follow_sublist node).subset h)

/-- What holds during the walk. -/
structure Walk.Invariant (cfg : Cfg) (constants : Facts Fact) (live : Facts (SortedSet VarId))
    (walk : Walk) : Prop where
  nodup : walk.reached.Nodup
  inside : ∀ node, node ∈ walk.reached ∨ node ∈ walk.queue → node ∈ cfg.nodes
  entry : cfg.entry ∈ walk.reached ∨ cfg.entry ∈ walk.queue
  closed : ∀ node ∈ walk.reached, ∀ next ∈ (follow cfg constants live node).1,
    next ∈ walk.reached ∨ next ∈ walk.queue
  kept : ∀ node, node ∈ walk.kept ↔
    node ∈ walk.reached ∧ (follow cfg constants live node).2 = true

/-- What is left of the walk: visits of new nodes, and visits that only empty the queue. -/
def Walk.remaining (cfg : Cfg) (walk : Walk) : Nat :=
  (cfg.nodes.length - walk.reached.length) * (cfg.edges.length + 1) + walk.queue.length

theorem Walk.invariant_start (cfg : Cfg) :
    Walk.Invariant cfg constants live { queue := [cfg.entry] } where
  nodup := List.nodup_nil
  inside := by simp [Cfg.nodes]
  entry := .inr List.mem_cons_self
  closed := by simp
  kept := by simp

variable {walk : Walk} {node : Node} {queue : List Node}

/-- A node that was reached before is dropped. -/
theorem Walk.Invariant.skip (h : walk.Invariant cfg constants live)
    (hqueue : walk.queue = node :: queue) (hreached : node ∈ walk.reached) :
    Walk.Invariant cfg constants live { walk with queue } := by
  have hdrop : ∀ {other}, other ∈ walk.reached ∨ other ∈ walk.queue →
      other ∈ walk.reached ∨ other ∈ queue := by
    intro other hother
    rw [hqueue, List.mem_cons] at hother
    rcases hother with hother | rfl | hother
    · exact .inl hother
    · exact .inl hreached
    · exact .inr hother
  constructor
  · exact h.nodup
  · intro other hother
    apply h.inside other
    rw [hqueue]
    exact hother.imp_right (List.mem_cons_of_mem node)
  · exact hdrop h.entry
  · exact fun other hother next hnext => hdrop (h.closed other hother next hnext)
  · exact h.kept

/-- A new node is reached, and what control goes to from there is queued. -/
theorem Walk.Invariant.reach {method : MethodId} {stmts : Array Stmt}
    (h : walk.Invariant (.ofStmts method stmts) constants live)
    (hqueue : walk.queue = node :: queue) (hnew : node ∉ walk.reached) :
    Walk.Invariant (.ofStmts method stmts) constants live {
      queue := queue ++ (follow (.ofStmts method stmts) constants live node).1
      reached := node :: walk.reached
      kept := if (follow (.ofStmts method stmts) constants live node).2 then node :: walk.kept
        else walk.kept } := by
  have hmove : ∀ {other} (more : List Node), other ∈ walk.reached ∨ other ∈ walk.queue →
      other ∈ node :: walk.reached ∨ other ∈ queue ++ more := by
    intro other more hother
    rw [hqueue, List.mem_cons] at hother
    simp only [List.mem_cons, List.mem_append]
    tauto
  have hnode := h.inside node (.inr (hqueue ▸ List.mem_cons_self))
  constructor
  · exact List.nodup_cons.mpr ⟨hnew, h.nodup⟩
  · intro other hother
    simp only [List.mem_cons, List.mem_append] at hother
    rcases hother with (rfl | hother) | hother | hother
    · exact hnode
    · exact h.inside other (.inl hother)
    · exact h.inside other (.inr (hqueue ▸ List.mem_cons_of_mem node hother))
    · exact (Cfg.mem_nodes_of_mem_succs (mem_succs_of_mem_follow hother)).2
  · exact hmove _ h.entry
  · intro other hother next hnext
    rcases List.mem_cons.mp hother with rfl | hother
    · exact .inr (List.mem_append_right _ hnext)
    · exact hmove _ (h.closed other hother next hnext)
  · intro other
    by_cases hother : other = node
    · subst hother
      have hnotKept : other ∉ walk.kept := fun hkept => hnew ((h.kept other).mp hkept).1
      split <;> simp_all
    · split <;> simp [hother, h.kept other]

/-- A node is new to the walk only as often as there are nodes. -/
theorem Walk.Invariant.length_reached_lt {method : MethodId} {stmts : Array Stmt}
    (h : walk.Invariant (.ofStmts method stmts) constants live)
    (hqueue : walk.queue = node :: queue) (hnew : node ∉ walk.reached) :
    walk.reached.length < (Cfg.ofStmts method stmts).nodes.length := by
  have hnodup : (node :: walk.reached).Nodup := (h.reach hqueue hnew).nodup
  have hsubset : node :: walk.reached ⊆ (Cfg.ofStmts method stmts).nodes :=
    fun other hother => (h.reach hqueue hnew).inside other (.inl hother)
  exact (List.subperm_of_subset hnodup hsubset).length_le

/-- Every visit keeps the invariant and leaves less of the walk. -/
theorem Walk.Invariant.visit {method : MethodId} {stmts : Array Stmt} {next : Walk}
    (h : walk.Invariant (.ofStmts method stmts) constants live)
    (hnext : visit (.ofStmts method stmts) constants live walk = .more next) :
    next.Invariant (.ofStmts method stmts) constants live ∧
      next.remaining (.ofStmts method stmts) < walk.remaining (.ofStmts method stmts) := by
  cases hqueue : walk.queue with
  | nil => simp [DeadCode.visit, hqueue] at hnext
  | cons node queue =>
    simp only [DeadCode.visit, hqueue] at hnext
    by_cases hreached : node ∈ walk.reached
    · rw [if_pos (List.contains_iff_mem.mpr hreached)] at hnext
      cases hnext
      use h.skip hqueue hreached
      simp only [remaining, hqueue, List.length_cons]
      omega
    · rw [if_neg fun hmem => hreached (List.contains_iff_mem.mp hmem)] at hnext
      cases hnext
      use h.reach hqueue hreached
      have hlt := h.length_reached_lt hqueue hreached
      simp only [remaining, hqueue, List.length_cons, List.length_append]
      exact Iteration.remaining_lt_of_visit hlt (length_follow_le node) queue.length

/-- The nodes that the walk reaches, and those that it keeps. -/
structure Explored (cfg : Cfg) (constants : Facts Fact) (live : Facts (SortedSet VarId))
    (walk : Walk) : Prop where
  entry : cfg.entry ∈ walk.reached
  closed : ∀ node ∈ walk.reached, ∀ next ∈ (follow cfg constants live node).1,
    next ∈ walk.reached
  kept : ∀ node, node ∈ walk.kept ↔
    node ∈ walk.reached ∧ (follow cfg constants live node).2 = true

/-- The walk comes to its end. -/
theorem exists_explored (constants : Facts Fact) (live : Facts (SortedSet VarId))
    (method : MethodId) (stmts : Array Stmt) :
    ∃ walk, Explored (.ofStmts method stmts) constants live walk ∧
      find (.ofStmts method stmts) constants live =
        (List.range stmts.size).filter fun index => !walk.kept.contains (.stmt method index) := by
  refine ⟨_, ?_, rfl⟩
  apply @Iteration.settle_final _ (Walk.Invariant (.ofStmts method stmts) constants live) _
    (Walk.remaining (.ofStmts method stmts)) _ _ _ _ _ (Walk.invariant_start _)
  · exact Iteration.remaining_lt_rounds _ _
  · exact fun walk next h hnext => h.visit hnext
  · intro walk final h hdone
    cases hqueue : walk.queue with
    | nil =>
      simp only [DeadCode.visit, hqueue, Iteration.Turn.done.injEq] at hdone
      subst hdone
      have hempty : ∀ {other},
          other ∈ walk.reached ∨ other ∈ walk.queue → other ∈ walk.reached := by
        simp [hqueue]
      exact ⟨hempty h.entry, fun node hnode next hnext => hempty (h.closed node hnode next hnext),
        h.kept⟩
    | cons node queue =>
      simp only [DeadCode.visit, hqueue] at hdone
      split at hdone <;> cases hdone

/-- A reached statement is kept unless it is a dead assignment. -/
theorem follow_kept {method : MethodId} {stmts : Array Stmt} {index : Nat} {stmt : Stmt}
    (hstmt : stmts[index]? = some stmt) :
    (follow (.ofStmts method stmts) constants live (.stmt method index)).2 =
      !isDeadAssignment stmt (live.after.get? (.stmt method index)) := by
  have hat : (Cfg.ofStmts method stmts).stmt? (.stmt method index) = some stmt := hstmt
  simp only [follow, hat]
  cases stmt <;> rfl

/-- What the dead statements of a method are, where `reached` are the nodes that control gets
to as far as the constants tell. -/
structure Finds (method : MethodId) (stmts : Array Stmt) (constants : Facts Fact)
    (live : Facts (SortedSet VarId)) (reached : List Node) (dead : List Nat) : Prop where
  start : Cfg.nodeAt method stmts.size 0 ∈ reached
  closed : ∀ node ∈ reached,
    ∀ next ∈ (follow (.ofStmts method stmts) constants live node).1, next ∈ reached
  dead : ∀ {index stmt}, stmts[index]? = some stmt → .stmt method index ∈ reached →
    (index ∈ dead ↔ isDeadAssignment stmt (live.after.get? (.stmt method index)) = true)

theorem exists_finds (constants : Facts Fact) (live : Facts (SortedSet VarId))
    (method : MethodId) (stmts : Array Stmt) :
    ∃ reached, Finds method stmts constants live reached
      (find (.ofStmts method stmts) constants live) := by
  obtain ⟨walk, hexplored, hfind⟩ := exists_explored constants live method stmts
  use walk.reached
  constructor
  · apply hexplored.closed _ hexplored.entry
    exact Cfg.mem_succs_entry_iff.mpr rfl
  · exact hexplored.closed
  · intro index stmt hstmt hreached
    have hlt := (Array.getElem?_eq_some_iff.mp hstmt).1
    have hkept := hexplored.kept (.stmt method index)
    rw [follow_kept hstmt] at hkept
    simp [hfind, hlt, hkept, hreached]

end ObjectFlow.Dataflow.DeadCode
