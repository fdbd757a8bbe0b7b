import Mathlib.Data.List.Perm.Subperm
import Mathlib.Tactic.Ring
import ObjectFlow.Dataflow.Liveness
import ObjectFlow.Proofs.Dataflow.Constants
import ObjectFlow.Proofs.Dataflow.Interprocedural
import ObjectFlow.Proofs.Dataflow.Worklist
import ObjectFlow.Proofs.Program.Size
import ObjectFlow.Proofs.SortedSet

/-!
# The facts of one method

Constant propagation and liveness of a method are two problems for one solver, the first
along the edges of the control-flow graph and the second against them.  Both are lawful, and
the solver is allowed enough visits for the graph of any method.  The facts of both analyses
therefore solve their equations.
-/

namespace ObjectFlow.Dataflow

/-- A table of transfer functions that keep facts good.  A node without a row changes
nothing. -/
theorem exists_transfers {φ : Type} {Good : φ → Prop} {nodes : List Node}
    {transfer : Node → Except Fault (φ → φ)}
    (h : ∀ node ∈ nodes, ∃ f, transfer node = .ok f ∧ ∀ fact, Good fact → Good (f fact)) :
    ∃ transfers, nodes.mapM (fun node => do return (node, ← transfer node)) = .ok transfers ∧
      (∀ node ∈ nodes, ∀ f, transfer node = .ok f → (transfers.lookup node).getD id = f) ∧
      ∀ node fact, Good fact → Good ((transfers.lookup node).getD id fact) := by
  obtain ⟨transfers, htransfers⟩ :
      ∃ transfers, nodes.mapM (fun node => do return (node, ← transfer node)) = .ok transfers := by
    apply exists_mapM_ok
    intro node hnode
    obtain ⟨f, hf, -⟩ := h node hnode
    exact ⟨(node, f), by simp [hf]⟩
  have hlookup : ∀ node ∈ nodes, ∀ f, transfer node = .ok f →
      (transfers.lookup node).getD id = f := by
    intro node hnode f hf
    obtain ⟨f', hf', hrow⟩ := lookup_of_mapM htransfers hnode
    rw [hf] at hf'
    cases hf'
    rw [hrow, Option.getD_some]
  use transfers, htransfers, hlookup
  intro node fact hfact
  by_cases hnode : node ∈ nodes
  · obtain ⟨f, hf, hkeeps⟩ := h node hnode
    rw [hlookup node hnode f hf]
    exact hkeeps fact hfact
  · rw [lookup_eq_none_of_mapM htransfers hnode]
    exact hfact

section Method

variable {program : Program} {id : MethodId} {method : Method}

theorem getStmt_of_getElem? (hmethod : program.getMethod id = .ok method) {index : Nat}
    {stmt : Stmt} (hstmt : method.stmts[index]? = some stmt) :
    program.getStmt ⟨id, index⟩ = .ok stmt :=
  Program.getStmt_eq_ok_iff.mpr ⟨method, hmethod, hstmt⟩

theorem stmt_mem_nodes {stmts : Array Stmt} {index : Nat} {stmt : Stmt}
    (hstmt : stmts[index]? = some stmt) :
    Node.ofSite ⟨id, index⟩ ∈ (Cfg.ofStmts id stmts).nodes :=
  Cfg.mem_nodes_iff.mpr ⟨rfl, (Array.getElem?_eq_some_iff.mp hstmt).1⟩

/-- A node of a method is one of its ends or has a statement. -/
theorem site?_eq_none_or_stmt {stmts : Array Stmt} {node : Node}
    (hnode : node ∈ (Cfg.ofStmts id stmts).nodes) :
    node.site? = none ∨ ∃ index stmt, node = .ofSite ⟨id, index⟩ ∧ stmts[index]? = some stmt := by
  obtain ⟨hid, hinside⟩ := Cfg.mem_nodes_iff.mp hnode
  obtain ⟨owner, point⟩ := node
  cases point with
  | entry => exact .inl rfl
  | stmt index =>
    obtain rfl : owner = id := hid
    exact .inr ⟨index, stmts[index], rfl, Array.getElem?_eq_getElem hinside⟩
  | exit => exact .inl rfl

/-- The solver is allowed enough visits for any method of the program. -/
theorem visits_lt_rounds (hmethod : program.getMethod id = .ok method) {nodes limit : Nat}
    (hnodes : nodes = method.stmts.size + 2) (hlimit : limit ≤ 2 * program.listing.size) :
    nodes * (limit + 1) * (nodes + 1) + nodes + 1 < 2 ^ (4 * program.listing.size + 8) := by
  have hstmts : method.stmts.size ≤ program.listing.size := by
    simpa [Method.sites] using Program.length_sites_le hmethod
  generalize program.listing.size = size at *
  have hwide : size + 1 ≤ 2 ^ size := Nat.lt_two_pow_self
  generalize hwidth : 2 ^ size = width at hwide
  have hpos : 1 ≤ width := by omega
  have hcube : width ≤ width ^ 3 := Nat.le_self_pow (by omega) width
  calc nodes * (limit + 1) * (nodes + 1) + nodes + 1
      ≤ (2 * width) * (2 * width) * (3 * width) + 2 * width + 1 := by gcongr <;> omega
    _ = 12 * width ^ 3 + 2 * width + 1 := by ring
    _ < 256 * width ^ 3 := by omega
    _ ≤ 256 * width ^ 4 := Nat.mul_le_mul_left _ (Nat.pow_le_pow_right hpos (by omega))
    _ = 2 ^ (4 * size + 8) := by
      rw [← hwidth]
      ring

/-- Equations over the nodes of a method, where `passes` says how facts pass a statement. -/
structure Describes {φ : Type} [Preorder φ] (id : MethodId) (stmts : Array Stmt)
    (scale : Scale φ) (passes : Stmt → φ → φ) (equations : Problem φ) : Prop where
  lawful : equations.Lawful scale
  mem_nodes : ∀ node, node ∈ equations.nodes ↔ node ∈ (Cfg.ofStmts id stmts).nodes
  length_nodes : equations.nodes.length = stmts.size + 2
  boundary : equations.boundary.site? = none
  transfer : ∀ {index stmt}, stmts[index]? = some stmt →
    equations.transfer (.ofSite ⟨id, index⟩) = passes stmt

namespace Describes

variable {φ : Type} [Preorder φ] [DecidableEq φ] {scale : Scale φ} {passes : Stmt → φ → φ}
  {equations : Problem φ} {progress : Progress φ}

/-- Visit after visit, the queue of the solver runs empty. -/
theorem exists_ends (h : Describes id method.stmts scale passes equations)
    (hmethod : program.getMethod id = .ok method)
    (hlimit : scale.limit ≤ 2 * program.listing.size) :
    ∃ count,
      Iteration.Ends equations.visit equations.start count
        (equations.solve (4 * program.listing.size + 8)) ∧
      ((equations.solve (4 * program.listing.size + 8)).queue = [] ∧
        equations.Solution scale (equations.solve (4 * program.listing.size + 8))) ∧
      count ≤ equations.limit scale := by
  apply h.lawful.exists_ends
  exact visits_lt_rounds hmethod h.length_nodes hlimit

theorem solution (h : Describes id method.stmts scale passes equations)
    (hmethod : program.getMethod id = .ok method)
    (hlimit : scale.limit ≤ 2 * program.listing.size) :
    equations.Solution scale (equations.solve (4 * program.listing.size + 8)) := by
  obtain ⟨_, -, ⟨-, hsolution⟩, -⟩ := h.exists_ends hmethod hlimit
  exact hsolution

omit [DecidableEq φ] in
theorem stmt_ne_boundary {stmts : Array Stmt} (h : Describes id stmts scale passes equations)
    (index : Nat) : Node.stmt id index ≠ equations.boundary := by
  intro heq
  have hsite := h.boundary
  rw [← heq] at hsite
  cases hsite

omit [DecidableEq φ] in
theorem output_stmt {stmts : Array Stmt} (h : Describes id stmts scale passes equations)
    (hsolution : equations.Solution scale progress) {index : Nat} {stmt : Stmt}
    (hstmt : stmts[index]? = some stmt) :
    equations.outputOf progress (.stmt id index) =
      passes stmt (equations.inputOf progress (.stmt id index)) := by
  have hnode := (h.mem_nodes _).mpr (stmt_mem_nodes hstmt)
  have hne := h.stmt_ne_boundary index
  have houtput := (hsolution.settled _ hnode hne).output
  rw [h.transfer hstmt] at houtput
  exact houtput

end Describes

end Method

namespace Constants

variable {program : Program} {id : MethodId} {method : Method}

/-- Facts over the variables of a program, where only those for small numbers have a value. -/
def scale (program : Program) : Scale Fact where
  Good fact := fact.Tidy program.listing.vars.size ∧ Numeric program fact
  height := Fact.height program.listing.vars.size
  limit := 2 * program.listing.vars.size
  height_le _ := Fact.height_le _ _
  height_mono _ _ h := Fact.height_mono h
  eq_of_height ha hb h hheight := ha.1.eq_of_height hb.1 h hheight

/-- How facts pass a statement of a program. -/
def passes (program : Program) (stmt : Stmt) : Fact → Fact :=
  transferStmt (stmt.writes?.any program.holdsInt) stmt

theorem exists_transfer (hmethod : program.getMethod id = .ok method) {node : Node}
    (hnode : node ∈ (Cfg.ofStmts id method.stmts).nodes) :
    ∃ f, transfer program node = .ok f ∧
      ∀ fact, (scale program).Good fact → (scale program).Good (f fact) := by
  rcases site?_eq_none_or_stmt hnode with hsite | ⟨index, stmt, rfl, hstmt⟩
  · exact ⟨fun fact => fact, by rw [transfer, hsite]; rfl, fun fact hfact => hfact⟩
  · have hget := getStmt_of_getElem? hmethod hstmt
    use passes program stmt, transfer_ofSite hget
    intro fact hfact
    exact ⟨tidy_transferStmt hfact.1 hget, hfact.2.transferStmt stmt⟩

theorem exists_problem (hmethod : program.getMethod id = .ok method) :
    ∃ equations, problem program (Cfg.ofStmts id method.stmts) = .ok equations ∧
      equations.sources = (Cfg.ofStmts id method.stmts).preds ∧
      equations.boundary = .entry id ∧ equations.initial = {} ∧
      boundaryFact program id = .ok equations.boundaryFact ∧
      Describes id method.stmts (scale program) (passes program) equations := by
  obtain ⟨fact, hfact, htidy, -⟩ := exists_boundaryFact hmethod
  obtain ⟨transfers, htransfers, hlookup, hgood⟩ :=
    exists_transfers fun node hnode => exists_transfer hmethod hnode
  have hboundary : boundaryFact program (Cfg.ofStmts id method.stmts).method = .ok fact := hfact
  refine ⟨_, by rw [problem, hboundary, ok_bind, htransfers, ok_bind, pure_eq_ok], rfl, rfl, rfl,
    hfact, ?_⟩
  constructor
  · exact {
      nodup := Cfg.nodup_nodes _
      boundary := Cfg.mem_nodes_iff.mpr ⟨rfl, trivial⟩
      sources := fun node source hsource =>
        have hsucc := Cfg.mem_preds_iff.mp hsource
        ⟨(Cfg.mem_nodes_of_mem_succs hsucc).1, hsucc⟩
      targets := fun node target htarget => (Cfg.mem_nodes_of_mem_succs htarget).2
      boundaryFact := ⟨htidy, numeric_boundaryFact hfact⟩
      initial := ⟨Fact.tidy_empty, numeric_empty⟩
      meet := fun ha hb => ⟨⟨ha.1.meetInto hb.1, ha.2.meetInto ha.1.toCanonical hb.2⟩,
        ha.1.toCanonical.le_meetInto _, ha.1.toCanonical.target_le_meetInto _⟩
      transfer := fun node fact hfact => hgood node fact hfact }
  · exact fun node => Iff.rfl
  · exact Cfg.length_nodes _
  · rfl
  · intro index stmt hstmt
    exact hlookup _ (stmt_mem_nodes hstmt) _ (transfer_ofSite (getStmt_of_getElem? hmethod hstmt))

/-- The parts of the equations of a method. -/
structure Represents (program : Program) (cfg : Cfg) (equations : Problem Fact) : Prop where
  nodes : equations.nodes = cfg.nodes
  sources : equations.sources = cfg.preds
  boundary : equations.boundary = cfg.entry
  boundaryFact : boundaryFact program cfg.method = .ok equations.boundaryFact
  initial : equations.initial = {}
  meet : equations.meet = Fact.meetInto
  transfer : ∀ node ∈ cfg.nodes, transfer program node = .ok (equations.transfer node)

theorem represents_of_problem {cfg : Cfg} {equations : Problem Fact}
    (h : problem program cfg = .ok equations) : Represents program cfg equations := by
  obtain ⟨fact, hfact, h⟩ := bind_eq_ok_iff.mp h
  obtain ⟨transfers, htransfers, h⟩ := bind_eq_ok_iff.mp h
  cases h
  refine ⟨rfl, rfl, rfl, hfact, rfl, rfl, ?_⟩
  intro node hnode
  obtain ⟨f, hf, hlookup⟩ := lookup_of_mapM htransfers hnode
  simp only [hlookup, Option.getD_some]
  exact hf

/-- Constant propagation of a method succeeds with a solution of its equations. -/
theorem exists_solution (hmethod : program.getMethod id = .ok method) :
    ∃ equations rounds, Represents program (.ofStmts id method.stmts) equations ∧
      Describes id method.stmts (scale program) (passes program) equations ∧
      equations.Solution (scale program) (equations.solve rounds) ∧
      analyze program id =
        .ok ⟨(equations.solve rounds).input, (equations.solve rounds).output⟩ := by
  obtain ⟨equations, hequations, -, -, -, -, hdescribes⟩ := exists_problem hmethod
  have hsolution := hdescribes.solution hmethod (Nat.mul_le_mul_left 2 program.measured.vars)
  refine ⟨equations, _, represents_of_problem hequations, hdescribes, hsolution, ?_⟩
  rw [analyze, Cfg.build_of_getMethod hmethod, ok_bind, hequations, ok_bind, pure_eq_ok]

/-- A solution of the equations of a method: its parameters have any value where it starts,
and what a statement leaves flows to all that may follow it. -/
structure Solves (program : Program) (id : MethodId) (method : Method) (facts : Facts Fact) :
    Prop where
  numeric : ∀ node, Numeric program (facts.input node)
  params : ∀ param ∈ method.params, program.holdsInt param = true →
    (facts.input (Cfg.nodeAt id method.stmts.size 0)).get param = .nac
  flows : ∀ {index stmt}, method.stmts[index]? = some stmt →
    ∀ target ∈ (Cfg.ofStmts id method.stmts).succs (.stmt id index),
      passes program stmt (facts.input (.stmt id index)) ≤ facts.input target

/-- Constant propagation of a method succeeds and solves its equations. -/
theorem exists_analyze (hmethod : program.getMethod id = .ok method) :
    ∃ facts, analyze program id = .ok facts ∧ Solves program id method facts := by
  obtain ⟨equations, rounds, hrepresents, hdescribes, hsolution, hanalyze⟩ :=
    exists_solution hmethod
  generalize equations.solve rounds = progress at hsolution hanalyze
  have hinput : ∀ node, Facts.input ⟨progress.input, progress.output⟩ node =
      equations.inputOf progress node := by
    intro node
    rw [Facts.input, Problem.inputOf, hrepresents.initial]
  -- Every edge carries what flows out of its source, because no edge leads to the boundary.
  have hflows : ∀ source target, target ∈ (Cfg.ofStmts id method.stmts).succs source →
      equations.outputOf progress source ≤ equations.inputOf progress target := by
    intro source target htarget
    have hnode := (hdescribes.mem_nodes target).mpr (Cfg.mem_nodes_of_mem_succs htarget).2
    have hne : target ≠ equations.boundary := by
      rw [hrepresents.boundary]
      exact Cfg.ne_entry_of_mem_succs htarget
    apply (hsolution.settled target hnode hne).flows
    rw [hrepresents.sources]
    exact Cfg.mem_preds_iff.mpr htarget
  refine ⟨_, hanalyze, ?_, ?_, ?_⟩
  · intro node
    rw [hinput]
    exact (hsolution.input_good node).2
  · intro param hparam hint
    obtain ⟨fact, hfact, -, hnac⟩ := exists_boundaryFact hmethod
    obtain rfl := Except.ok.inj (hrepresents.boundaryFact.symm.trans hfact)
    have hsent := hflows (.entry id) _ (Cfg.mem_succs_entry_iff.mpr rfl) param
    have hentry : equations.outputOf progress (.entry id) = equations.boundaryFact := by
      rw [← hsolution.boundary_output, hrepresents.boundary]
      rfl
    rw [hentry, hnac param hparam hint] at hsent
    rw [hinput]
    exact le_antisymm (Value.le_nac _) hsent
  · intro index stmt hstmt target htarget
    rw [hinput, hinput, ← hdescribes.output_stmt hsolution hstmt]
    exact hflows _ target htarget

end Constants

namespace Liveness

variable {program : Program} {id : MethodId} {method : Method} {site : Site} {stmt : Stmt}

/-- Sets of live variables are ordered by inclusion. -/
instance : Preorder (SortedSet VarId) where
  le live live' := ∀ v ∈ live.toList, v ∈ live'.toList
  le_refl _ _ hv := hv
  le_trans _ _ _ h h' v hv := h' v (h v hv)

/-- The members are variables of a program, in ascending order. -/
structure Within (vars : Nat) (live : SortedSet VarId) : Prop where
  ascending : live.Ascending
  index_lt : ∀ v ∈ live.toList, v.index < vars

theorem within_empty (vars : Nat) : Within vars {} := ⟨SortedSet.ascending_empty, by
  intro v hv
  cases hv⟩

theorem Within.length_le {vars : Nat} {live : SortedSet VarId} (h : Within vars live) :
    live.toList.length ≤ vars :=
  Program.length_le_of_index_lt h.ascending.nodup h.index_lt

/-- An ascending set with the same members in the same number is the same set. -/
theorem Within.eq_of_length {vars : Nat} {live live' : SortedSet VarId} (h : Within vars live)
    (h' : Within vars live') (hle : live ≤ live')
    (hlength : live'.toList.length ≤ live.toList.length) : live = live' := by
  have hperm : live.toList.Perm live'.toList :=
    (List.subperm_of_subset h.ascending.nodup hle).perm_of_length_le hlength
  have heq : live.toList = live'.toList :=
    hperm.eq_of_pairwise (fun a b _ _ hab hba => absurd hba (asymm_of (· < ·) hab))
      h.ascending h'.ascending
  cases live
  cases live'
  exact congrArg SortedSet.mk heq

def scale (program : Program) : Scale (SortedSet VarId) where
  Good := Within program.listing.vars.size
  height live := live.toList.length
  limit := program.listing.vars.size
  height_le h := h.length_le
  height_mono h _ hle := (List.subperm_of_subset h.ascending.nodup hle).length_le
  eq_of_height h h' hle hlength := h.eq_of_length h' hle hlength

theorem Within.union {vars : Nat} {live live' : SortedSet VarId} (h : Within vars live)
    (h' : Within vars live') : Within vars (live.union live') where
  ascending := h.ascending.union h'.ascending
  index_lt v hv := (SortedSet.mem_union.mp hv).elim (h.index_lt v) (h'.index_lt v)

theorem transfer_ofSite (hstmt : program.getStmt site = .ok stmt) :
    transfer program (.ofSite site) = .ok (transferStmt stmt) := by
  rw [transfer, Node.site?_eq_some_iff.mpr rfl]
  simp [hstmt]

/-- What a statement reads is live before it, and what is live after it unless the statement
writes it. -/
theorem mem_transferStmt {live : SortedSet VarId} {v : VarId} :
    v ∈ (transferStmt stmt live).toList ↔
      v ∈ stmt.uses ∨ (v ∈ live.toList ∧ stmt.writes? ≠ some v) := by
  rw [transferStmt, SortedSet.mem_foldl_insert]
  cases stmt.writes? with
  | none => simp [or_comm]
  | some lhs => simp [or_comm, eq_comm]

theorem Within.transferStmt {live : SortedSet VarId}
    (h : Within program.listing.vars.size live) (hstmt : program.getStmt site = .ok stmt) :
    Within program.listing.vars.size (transferStmt stmt live) := by
  constructor
  · rw [Liveness.transferStmt]
    apply SortedSet.Ascending.foldl_insert
    split
    · exact h.ascending.erase _
    · exact h.ascending
  · intro v hv
    rcases mem_transferStmt.mp hv with huse | ⟨hlive, -⟩
    · exact Program.var_lt_of_getStmt hstmt (List.mem_append_left _ huse)
    · exact h.index_lt v hlive

theorem exists_transfer (hmethod : program.getMethod id = .ok method) {node : Node}
    (hnode : node ∈ (Cfg.ofStmts id method.stmts).nodes) :
    ∃ f, transfer program node = .ok f ∧
      ∀ live, (scale program).Good live → (scale program).Good (f live) := by
  rcases site?_eq_none_or_stmt hnode with hsite | ⟨index, stmt, rfl, hstmt⟩
  · exact ⟨fun live => live, by rw [transfer, hsite]; rfl, fun live hlive => hlive⟩
  · have hget := getStmt_of_getElem? hmethod hstmt
    use transferStmt stmt, transfer_ofSite hget
    intro live hlive
    exact Within.transferStmt hlive hget

theorem exists_problem (hmethod : program.getMethod id = .ok method) :
    ∃ equations, problem program (Cfg.ofStmts id method.stmts) = .ok equations ∧
      equations.sources = (Cfg.ofStmts id method.stmts).succs ∧
      equations.initial = {} ∧
      Describes id method.stmts (scale program) transferStmt equations := by
  obtain ⟨transfers, htransfers, hlookup, hgood⟩ :=
    exists_transfers fun node hnode => exists_transfer hmethod hnode
  refine ⟨_, by rw [problem, htransfers, ok_bind, pure_eq_ok], rfl, rfl, ?_⟩
  constructor
  · exact {
      nodup := List.nodup_reverse.mpr (Cfg.nodup_nodes _)
      boundary := List.mem_reverse.mpr (Cfg.mem_nodes_iff.mpr ⟨rfl, trivial⟩)
      sources := fun node source hsource =>
        ⟨List.mem_reverse.mpr (Cfg.mem_nodes_of_mem_succs hsource).2,
          Cfg.mem_preds_iff.mpr hsource⟩
      targets := fun node target htarget =>
        List.mem_reverse.mpr (Cfg.mem_nodes_of_mem_succs (Cfg.mem_preds_iff.mp htarget)).1
      boundaryFact := within_empty _
      initial := within_empty _
      meet := fun ha hb => ⟨hb.union ha, fun v hv => SortedSet.mem_union.mpr (.inr hv),
        fun v hv => SortedSet.mem_union.mpr (.inl hv)⟩
      transfer := fun node live hlive => hgood node live hlive }
  · exact fun node => List.mem_reverse
  · rw [List.length_reverse]
    exact Cfg.length_nodes _
  · rfl
  · intro index stmt hstmt
    exact hlookup _ (stmt_mem_nodes hstmt) _ (transfer_ofSite (getStmt_of_getElem? hmethod hstmt))

/-- The parts of the equations of a method. -/
structure Represents (program : Program) (cfg : Cfg) (equations : Problem (SortedSet VarId)) :
    Prop where
  nodes : equations.nodes = cfg.nodes.reverse
  sources : equations.sources = cfg.succs
  boundary : equations.boundary = cfg.exit
  boundaryFact : equations.boundaryFact = {}
  initial : equations.initial = {}
  meet : equations.meet = fun live target => target.union live
  transfer : ∀ node ∈ cfg.nodes, transfer program node = .ok (equations.transfer node)

theorem represents_of_problem {cfg : Cfg} {equations : Problem (SortedSet VarId)}
    (h : problem program cfg = .ok equations) :
    Represents program cfg equations := by
  obtain ⟨transfers, htransfers, h⟩ := bind_eq_ok_iff.mp h
  cases h
  refine ⟨rfl, rfl, rfl, rfl, rfl, rfl, ?_⟩
  intro node hnode
  obtain ⟨f, hf, hlookup⟩ := lookup_of_mapM htransfers hnode
  simp only [hlookup, Option.getD_some]
  exact hf

/-- Liveness of a method succeeds with a solution of its equations. -/
theorem exists_solution (hmethod : program.getMethod id = .ok method) :
    ∃ equations rounds, Represents program (.ofStmts id method.stmts) equations ∧
      Describes id method.stmts (scale program) transferStmt equations ∧
      equations.Solution (scale program) (equations.solve rounds) ∧
      analyze program id =
        .ok ⟨(equations.solve rounds).output, (equations.solve rounds).input⟩ := by
  obtain ⟨equations, hequations, -, -, hdescribes⟩ := exists_problem hmethod
  have hlimit : program.listing.vars.size ≤ 2 * program.listing.size :=
    program.measured.vars.trans (Nat.le_mul_of_pos_left _ (by omega))
  refine ⟨equations, _, represents_of_problem hequations, hdescribes,
    hdescribes.solution hmethod hlimit, ?_⟩
  rw [analyze, Cfg.build_of_getMethod hmethod, ok_bind, hequations, ok_bind, pure_eq_ok]

/-- The variables that are live before a node. -/
def liveBefore (facts : Facts (SortedSet VarId)) (node : Node) : SortedSet VarId :=
  (facts.before.get? node).getD {}

/-- The variables that are live after a node. -/
def liveAfter (facts : Facts (SortedSet VarId)) (node : Node) : SortedSet VarId :=
  (facts.after.get? node).getD {}

/-- A solution of the equations of a method: what is live before any node that may follow a
statement is live after the statement. -/
structure Solves (id : MethodId) (stmts : Array Stmt) (facts : Facts (SortedSet VarId)) :
    Prop where
  before : ∀ {index stmt}, stmts[index]? = some stmt →
    liveBefore facts (.stmt id index) = transferStmt stmt (liveAfter facts (.stmt id index))
  flows : ∀ {index stmt}, stmts[index]? = some stmt →
    ∀ target ∈ (Cfg.ofStmts id stmts).succs (.stmt id index),
      liveBefore facts target ≤ liveAfter facts (.stmt id index)

/-- Liveness of a method succeeds and solves its equations. -/
theorem exists_analyze (hmethod : program.getMethod id = .ok method) :
    ∃ facts, analyze program id = .ok facts ∧ Solves id method.stmts facts := by
  obtain ⟨equations, rounds, hrepresents, hdescribes, hsolution, hanalyze⟩ :=
    exists_solution hmethod
  generalize equations.solve rounds = progress at hsolution hanalyze
  -- Facts flow backwards: what comes into a node is what is live after it.
  have hbefore : ∀ node, liveBefore ⟨progress.output, progress.input⟩ node =
      equations.outputOf progress node := by
    intro node
    rw [liveBefore, Problem.outputOf, hrepresents.initial]
  have hafter : ∀ node, liveAfter ⟨progress.output, progress.input⟩ node =
      equations.inputOf progress node := by
    intro node
    rw [liveAfter, Problem.inputOf, hrepresents.initial]
  refine ⟨_, hanalyze, ?_, ?_⟩
  · intro index stmt hstmt
    rw [hbefore, hafter, hdescribes.output_stmt hsolution hstmt]
  · intro index stmt hstmt target htarget
    have hnode := (hdescribes.mem_nodes _).mpr (stmt_mem_nodes hstmt)
    have hsettled := hsolution.settled _ hnode (hdescribes.stmt_ne_boundary index)
    rw [hbefore, hafter]
    exact hsettled.flows target (hrepresents.sources ▸ htarget)

end Liveness

end ObjectFlow.Dataflow
