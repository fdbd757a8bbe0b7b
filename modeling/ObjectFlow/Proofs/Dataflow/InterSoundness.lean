import ObjectFlow.Proofs.Dataflow.Covering
import ObjectFlow.Proofs.Dataflow.InterConstants
import ObjectFlow.Proofs.PointsTo.Soundness

/-!
# Constant propagation is sound for runs

The facts of a finished analysis cover the numbers of every run.  The numbers of the
running frame are covered by the fact before the node where it stands, those of a waiting
frame by the fact that passes its call, and a number in the heap by the fact after a store
that wrote it.  A load finds that store among the stores that it may meet.
-/

namespace ObjectFlow.Dataflow.InterConstants

open Execution (Cell Cells Env Frame Leads Machine Numbers NumericRuns NumericStep Object Ref Step
  Tracks Waits bound carried cell? getElem?_append_of_eq_some mem_succs_entry pointAt received
  stored)
open Supergraph (Built IsEdge)

/-- The facts of an analysis of a program, with all that they were computed from. -/
structure Analyzed (program : Program) (config : Config.Dataflow) (policy : PointsTo.Policy)
    (result : PointsTo.Result) (graph : Supergraph) (aliases : HeapAliases) (facts : Facts Fact) :
    Prop where
  complete : result.Complete program policy
  built : Built program result.callGraph graph
  meets : config.aliasAware = true → HeapAliases.build graph result = .ok aliases
  paired : Paired program aliases
  solved : Solved program config result.callGraph graph aliases facts

section Invariant

variable (program : Program) (result : PointsTo.Result) (facts : Facts Fact)

/-- A number in a cell comes from a store: the fact after it allows the number, and for an
array the index. -/
inductive Written (objects : List Object) (c : Int32) : Cell → Prop where
  | staticField {site : Site} {field : FieldId} {rhs : VarId}
    (hstmt : program.getStmt site = .ok (.storeField none field rhs))
    (hvalue : .constant c ≤ (facts.output (.ofSite site)).get rhs) :
    Written objects c (.staticField field)
  | field {site : Site} {base rhs : VarId} {field : FieldId} {r : Ref} {object : Object}
    (hreachable : site.method ∈ result.callGraph.reachable.toList)
    (hstmt : program.getStmt site = .ok (.storeField (some base) field rhs))
    (hobject : objects[r]? = some object) (hmay : result.MayPointTo base object)
    (hvalue : .constant c ≤ (facts.output (.ofSite site)).get rhs) :
    Written objects c (.field r field)
  | slot {site : Site} {base position rhs : VarId} {r : Ref} {object : Object} {index : Int32}
    (hreachable : site.method ∈ result.callGraph.reachable.toList)
    (hstmt : program.getStmt site = .ok (.storeArray base position rhs))
    (hobject : objects[r]? = some object) (hmay : result.MayPointTo base object)
    (hindex : .constant index ≤ (facts.output (.ofSite site)).get position)
    (hvalue : .constant c ≤ (facts.output (.ofSite site)).get rhs) :
    Written objects c (.slot r index)

/-- Every number in the heap comes from a store. -/
def CoversCells (objects : List Object) (cells : Cells Int32) : Prop :=
  ∀ cell c, cells cell = some c → Written program result facts objects c cell

/-- What passes the call that a frame waits for covers its numbers. -/
def Suspended (frame : Frame) (vars : Env Int32) : Prop :=
  ∀ position call, frame.point = .stmt position →
    program.getStmt ⟨frame.method, position⟩ = .ok (.invoke call) →
      (keptFact call.result (facts.output (.stmt frame.method position))).Covers vars

/-- The facts cover the numbers of a machine. -/
structure CoversMachine (machine : Machine) (numbers : Numbers) : Prop where
  vars : (facts.input ⟨machine.frame.method, machine.frame.point⟩).Covers numbers.vars
  callers : List.Forall₂ (Suspended program facts) machine.callers numbers.callers
  cells : CoversCells program result facts machine.objects numbers.cells

end Invariant

variable {program : Program} {config : Config.Dataflow} {policy : PointsTo.Policy}
  {result : PointsTo.Result} {graph : Supergraph} {aliases : HeapAliases} {facts : Facts Fact}

theorem Written.append {objects : List Object} {c : Int32} {cell : Cell}
    (h : Written program result facts objects c cell) (more : List Object) :
    Written program result facts (objects ++ more) c cell := by
  cases h with
  | staticField hstmt hvalue => exact .staticField hstmt hvalue
  | field hreachable hstmt hobject hmay hvalue =>
    exact .field hreachable hstmt (getElem?_append_of_eq_some hobject more) hmay hvalue
  | slot hreachable hstmt hobject hmay hindex hvalue =>
    exact .slot hreachable hstmt (getElem?_append_of_eq_some hobject more) hmay hindex
      hvalue

section Edges

/-- The parameters of a callee are allowed what the arguments are. -/
theorem covers_boundFact {fact : Fact} {vars : Env Int32} (h : fact.Covers vars)
    (args params : List VarId) :
    (boundFact args params fact).Covers (bound args params vars) := by
  unfold boundFact bound
  suffices hfold : ∀ (pairs : List (VarId × VarId)) (start : Fact) (env : Env Int32),
      start.Covers env →
        (pairs.foldl (fun bound pair => bound.update pair.2 (fact.get pair.1)) start).Covers
          (pairs.foldl (fun env pair => Function.update env pair.2 (vars pair.1)) env) by
    exact hfold _ _ _ fun _ => .none _
  intro pairs
  induction pairs with
  | nil => exact fun start env hstart => hstart
  | cons pair pairs ih => exact fun start env hstart => ih _ _ (hstart.update (h pair.1))

theorem covers_keptFact {fact : Fact} {vars : Env Int32} (h : fact.Covers vars)
    (result : Option VarId) :
    (keptFact result fact).Covers (match result with
      | some result => Function.update vars result none
      | none => vars) := by
  cases result with
  | none => exact h
  | some result => exact h.unassign result

/-- After a call the caller knows what it knew, and its result takes what is returned. -/
theorem covers_received {fact : Fact} {caller callee : Env Int32} {result returned : Option VarId}
    (hcaller : fact.Covers caller)
    (hresult : ∀ lhs v, result = some lhs → returned = some v → program.holdsInt lhs = true →
      (fact.get lhs).Allows (callee v)) :
    fact.Covers (carried program (received result returned caller callee)) := by
  intro w
  unfold carried
  split
  · next hint =>
    unfold received
    split
    · next lhs v =>
      by_cases hw : w = lhs
      · subst hw
        rw [Function.update_self]
        exact hresult w v rfl rfl hint
      · rw [Function.update_of_ne hw]
        exact hcaller w
    · exact hcaller w
  · exact .none _

/-- The result of a call is allowed what a returned variable is. -/
theorem allows_returnedValue {fact : Fact} {vars : Env Int32} (h : fact.Covers vars)
    {returned : List VarId} {v : VarId} (hv : v ∈ returned) :
    (returnedValue returned fact).Allows (vars v) :=
  (h v).mono (Value.le_foldl_meet fact.get hv _)

end Edges

namespace Analyzed

variable {trail : PointsTo.Trail}

theorem mem_reachable (h : Analyzed program config policy result graph aliases facts)
    {method : MethodId} (hderives : PointsTo.Derives program policy (.reachable trail method)) :
    method ∈ result.callGraph.reachable.toList := by
  obtain ⟨context, hholds, -⟩ := (h.complete.knows hderives).reachable
  exact PointsTo.Result.mem_reachable_callGraph_iff.mpr (.inr ⟨context, hholds⟩)

theorem node_mem (h : Analyzed program config policy result graph aliases facts) {node : Node}
    (hmethod : node.method ∈ result.callGraph.reachable.toList) {found : Method}
    (hfound : program.getMethod node.method = .ok found)
    (hinside : Node.Inside found.stmts.size node.point) : node ∈ graph.nodes :=
  h.built.mem_nodes_iff.mpr ⟨hmethod, found, hfound, hinside⟩

/-- What flows out of a node is what the node does to what flows in. -/
theorem exists_effect (h : Analyzed program config policy result graph aliases facts) {node : Node}
    (hnode : node ∈ graph.nodes) : ∃ f, NodeEffect program config aliases node f ∧
      facts.output node = f facts (facts.input node) := by
  obtain ⟨f, hf, heffect⟩ := exists_transfer h.paired (exists_getStmt h.built hnode)
  exact ⟨f, heffect, h.solved.output node hnode f hf⟩

/-- Entries and exits change nothing. -/
theorem output_through (h : Analyzed program config policy result graph aliases facts)
    {node : Node} (hnode : node ∈ graph.nodes) (hsite : node.site? = none) :
    facts.output node = facts.input node := by
  obtain ⟨f, heffect, houtput⟩ := h.exists_effect hnode
  cases heffect with
  | through => exact houtput
  | stmt => simp [Node.site?, Node.index?, Node.ofSite, Node.stmt] at hsite

theorem exists_effect_stmt (h : Analyzed program config policy result graph aliases facts)
    {site : Site} {stmt : Stmt} (hmethod : site.method ∈ result.callGraph.reachable.toList)
    (hstmt : program.getStmt site = .ok stmt) : ∃ f, Effect program config aliases site stmt f ∧
      facts.output (.ofSite site) = f facts (facts.input (.ofSite site)) := by
  have hnode := h.built.ofSite_mem_nodes_iff.mpr ⟨hmethod, stmt, hstmt⟩
  obtain ⟨f, heffect, houtput⟩ := h.exists_effect hnode
  refine ⟨f, ?_, houtput⟩
  generalize hof : Node.ofSite site = node at heffect
  cases heffect with
  | through hsite => simp [← hof, Node.site?, Node.index?, Node.ofSite, Node.stmt] at hsite
  | stmt hstmt' heffect =>
    cases Node.ofSite_injective hof
    cases hstmt.symm.trans hstmt'
    exact heffect

theorem output_call (h : Analyzed program config policy result graph aliases facts) {site : Site}
    {call : Call} (hmethod : site.method ∈ result.callGraph.reachable.toList)
    (hstmt : program.getStmt site = .ok (.invoke call)) :
    facts.output (.ofSite site) = facts.input (.ofSite site) := by
  obtain ⟨f, heffect, houtput⟩ := h.exists_effect_stmt hmethod hstmt
  cases heffect with
  | call => exact houtput
  | plain hplain => cases hplain

end Analyzed

section Flows

variable {method : MethodId} {found : Method} {source target : Node}

theorem innerKind_stmt (method : MethodId) {position : Nat} {stmt : Stmt}
    (hstmt : found.stmts[position]? = some stmt) :
    Supergraph.innerKind (.ofStmts method found.stmts) (.stmt method position) =
      if stmt.isCall then .callToReturn else .normal := by
  simp [Supergraph.innerKind, Cfg.stmt?, Node.index?, Node.stmt, Cfg.ofStmts, hstmt]

/-- What flows out of a node that is no call flows into its successors. -/
theorem Solved.flows_normal {calls : CallGraph Site MethodId}
    (h : Solved program config calls graph aliases facts)
    (hmethod : method ∈ calls.reachable.toList) (hfound : program.getMethod method = .ok found)
    (hsuccs : target ∈ (Cfg.ofStmts method found.stmts).succs source)
    (hkind : Supergraph.innerKind (.ofStmts method found.stmts) source = .normal) :
    facts.output source ≤ facts.input target := by
  have hedge := IsEdge.inner hmethod hfound hsuccs
  rw [hkind] at hedge
  exact h.flows _ id hedge rfl

/-- What the caller knows passes a call. -/
theorem Solved.flows_kept {calls : CallGraph Site MethodId} {position : Nat} {call : Call}
    (h : Solved program config calls graph aliases facts)
    (hmethod : method ∈ calls.reachable.toList) (hfound : program.getMethod method = .ok found)
    (hstmt : found.stmts[position]? = some (.invoke call))
    (hsuccs : target ∈ (Cfg.ofStmts method found.stmts).succs (.stmt method position)) :
    keptFact call.result (facts.output (.stmt method position)) ≤ facts.input target := by
  have hedge := IsEdge.inner hmethod hfound hsuccs
  have hsite : program.getStmt ⟨method, position⟩ = .ok (.invoke call) :=
    Program.getStmt_eq_ok_iff.mpr ⟨found, hfound, hstmt⟩
  rw [innerKind_stmt method hstmt] at hedge
  exact h.flows _ _ hedge (along_callToReturn hsite)

end Flows

section Loads

variable {site store : Site} {cells : Cells Int32} {objects : List Object}
  {vars : Env Ref} {index : Int32}

/-- A load and a store that go to one object are paired. -/
theorem Analyzed.mem_partnersOf (h : Analyzed program config policy result graph aliases facts)
    (haware : config.aliasAware = true) {load stored : Stmt} {base base' : VarId}
    {access : HeapAccess} {object : Object}
    (hsite : site.method ∈ result.callGraph.reachable.toList)
    (hload : program.getStmt site = .ok load)
    (haccess : HeapAccess.ofStmt? load = some (base, access)) (hmay : result.MayPointTo base object)
    (hstore : store.method ∈ result.callGraph.reachable.toList)
    (hstored : program.getStmt store = .ok stored)
    (hpartner : HeapAccess.ofStmt? stored = some (base', access.partner))
    (hmay' : result.MayPointTo base' object) : store ∈ aliases.partnersOf site := by
  obtain ⟨objects, objects', obj, hobjects, hobjects', hmem, hmem'⟩ := hmay.exists_common hmay'
  exact (HeapAliases.mem_partnersOf_iff h.built (h.meets haware)).mpr ⟨access, objects, objects',
    obj, ⟨hsite, load, base, hload, haccess, hobjects⟩,
    ⟨hstore, stored, base', hstored, hpartner, hobjects'⟩, hmem, hmem'⟩

/-- A load of a field is allowed what it finds. -/
theorem Analyzed.allows_field (h : Analyzed program config policy result graph aliases facts)
    (haware : config.aliasAware = true) {lhs : VarId} {base : Option VarId} {field : FieldId}
    {refs : List StoreRef} (hsite : site.method ∈ result.callGraph.reachable.toList)
    (hstmt : program.getStmt site = .ok (.loadField lhs base field))
    (hrefs : storeRefs program (fieldStores program aliases site base field) = .ok refs)
    (hcells : CoversCells program result facts objects cells)
    (hvars : result.CoversVars objects vars) :
    (loadedValue facts none refs).Allows
      ((cell? vars index (.loadField lhs base field)).bind cells) := by
  intro c hc
  obtain ⟨cell, hcell, hc⟩ := Option.bind_eq_some_iff.mp hc
  have hwritten := hcells cell c hc
  suffices hfound : ∃ store ∈ fieldStores program aliases site base field, ∃ base' rhs,
      program.getStmt store = .ok (.storeField base' field rhs) ∧
        .constant c ≤ (facts.output (.ofSite store)).get rhs by
    obtain ⟨store, hstore, base', rhs, hstored, hvalue⟩ := hfound
    have href : ⟨.ofSite store, none, rhs⟩ ∈ refs :=
      (mem_storeRefs_iff hrefs).mpr ⟨store, hstore, _, hstored, rfl⟩
    refine le_trans ?_ (storedValue_le_loadedValue href)
    rw [storedValue_eq]
    exact hvalue
  cases base with
  | none =>
    cases hcell
    cases hwritten with
    | @staticField store _ rhs hstored hvalue =>
      have hlt := PointsTo.field_lt_of_loadField hstmt
      have hstore : store ∈ program.staticStores field :=
        (Program.mem_staticStores_iff hlt).mpr ⟨_, hstored, rfl⟩
      exact ⟨store, hstore, none, rhs, hstored, hvalue⟩
  | some base =>
    obtain ⟨r, hr, rfl⟩ := Option.map_eq_some_iff.mp hcell
    obtain ⟨object, hobject, hmay⟩ := hvars base r hr
    cases hwritten with
    | @field store base' rhs _ _ _ hstore hstored hobject' hmay' hvalue =>
      rw [hobject] at hobject'
      cases hobject'
      have hmem := h.mem_partnersOf haware hsite hstmt rfl hmay hstore hstored rfl hmay'
      exact ⟨store, hmem, some base', rhs, hstored, hvalue⟩

/-- A load from an array is allowed what it finds at its index. -/
theorem Analyzed.allows_slot (h : Analyzed program config policy result graph aliases facts)
    (haware : config.aliasAware = true) {lhs base position : VarId} {value : Value}
    {refs : List StoreRef} (hsite : site.method ∈ result.callGraph.reachable.toList)
    (hstmt : program.getStmt site = .ok (.loadArray lhs base position))
    (hrefs : storeRefs program (aliases.partnersOf site) = .ok refs)
    (hindex : .constant index ≤ value)
    (hcells : CoversCells program result facts objects cells)
    (hvars : result.CoversVars objects vars) :
    (loadedValue facts (some value) refs).Allows
      ((cell? vars index (.loadArray lhs base position)).bind cells) := by
  intro c hc
  obtain ⟨cell, hcell, hc⟩ := Option.bind_eq_some_iff.mp hc
  have hwritten := hcells cell c hc
  obtain ⟨r, hr, rfl⟩ := Option.map_eq_some_iff.mp hcell
  obtain ⟨object, hobject, hmay⟩ := hvars base r hr
  cases hwritten with
  | @slot store base' slot rhs _ _ _ hstore hstored hobject' hmay' hslot hvalue =>
    rw [hobject] at hobject'
    cases hobject'
    have hmem := h.mem_partnersOf haware hsite hstmt rfl hmay hstore hstored rfl hmay'
    have href : ⟨.ofSite store, some slot, rhs⟩ ∈ refs :=
      (mem_storeRefs_iff hrefs).mpr ⟨store, hmem, _, hstored, rfl⟩
    refine le_trans ?_ (storedValue_le_loadedValue href)
    rw [storedValue_eq]
    simp only [Value.mayEqual_of_constant_le hindex hslot, if_true]
    exact hvalue

end Loads

section Execute

variable {site : Site} {stmt : Stmt} {numbers : Numbers} {objects : List Object} {vars : Env Ref}
  {index : Int32}

/-- A statement leaves numbers that the fact after it covers. -/
theorem Analyzed.covers_execute (h : Analyzed program config policy result graph aliases facts)
    (hsite : site.method ∈ result.callGraph.reachable.toList)
    (hstmt : program.getStmt site = .ok stmt) (hplain : stmt.isCall = false)
    (hready : numbers.Ready program (cell? vars index stmt) index stmt)
    (hnumbers : (facts.input (.ofSite site)).Covers numbers.vars)
    (hcells : CoversCells program result facts objects numbers.cells)
    (hvars : result.CoversVars objects vars) :
    (facts.output (.ofSite site)).Covers
      (numbers.execute program (cell? vars index stmt) stmt).vars := by
  obtain ⟨f, heffect, houtput⟩ := h.exists_effect_stmt hsite hstmt
  rw [houtput]
  cases heffect with
  | call => cases hplain
  | plain => exact hnumbers.transferStmt _ stmt
  | field haware _ hrefs =>
    exact (hnumbers.update (h.allows_field haware hsite hstmt hrefs hcells hvars)).carried
  | @slot lhs base position refs haware _ hrefs =>
    have hindex := hnumbers position index (hready.position position rfl)
    exact (hnumbers.update (h.allows_slot haware hsite hstmt hrefs hindex hcells hvars)).carried

theorem CoversCells.update {cells : Cells Int32} {cell : Cell} {number : Option Int32}
    (h : CoversCells program result facts objects cells)
    (hcell : ∀ c, number = some c → Written program result facts objects c cell) :
    CoversCells program result facts objects (Function.update cells cell number) := by
  intro other c hc
  by_cases hother : other = cell
  · subst hother
    rw [Function.update_self] at hc
    exact hcell c hc
  · rw [Function.update_of_ne hother] at hc
    exact h other c hc

/-- A store writes what the fact after it allows. -/
theorem coversCells_stored (hsite : site.method ∈ result.callGraph.reachable.toList)
    (hstmt : program.getStmt site = .ok stmt)
    (hready : numbers.Ready program (cell? vars index stmt) index stmt)
    (houtput : (facts.output (.ofSite site)).Covers
      (numbers.execute program (cell? vars index stmt) stmt).vars)
    (hcells : CoversCells program result facts objects numbers.cells)
    (hvars : result.CoversVars objects vars) :
    CoversCells program result facts objects
      (stored stmt (cell? vars index stmt) numbers.vars numbers.cells) := by
  cases stmt with
  | storeField base field rhs =>
    cases base with
    | none => exact hcells.update fun c hc => .staticField hstmt (houtput rhs c hc)
    | some base =>
      cases hr : vars base with
      | none => simpa [stored, cell?, hr] using hcells
      | some r =>
        obtain ⟨object, hobject, hmay⟩ := hvars base r hr
        simp only [stored, cell?, hr, Option.map_some]
        exact hcells.update fun c hc => .field hsite hstmt hobject hmay (houtput rhs c hc)
  | storeArray base position rhs =>
    cases hr : vars base with
    | none => simpa [stored, cell?, hr] using hcells
    | some r =>
      obtain ⟨object, hobject, hmay⟩ := hvars base r hr
      have hindex := houtput position index (hready.position position rfl)
      simp only [stored, cell?, hr, Option.map_some]
      exact hcells.update fun c hc =>
        .slot hsite hstmt hobject hmay hindex (houtput rhs c hc)
  | _ => exact hcells

end Execute

section Steps

/-- The method that a call enters is one of the callees of its site. -/
theorem Analyzed.callee_of_waits (h : Analyzed program config policy result graph aliases facts)
    {origins : List PointsTo.Origin} {trail calleeTrail : PointsTo.Trail} {frame : Frame}
    {callee : MethodId} {position : Nat} (hpoint : frame.point = .stmt position)
    (hwaits : Waits program policy origins trail frame calleeTrail callee) :
    callee ∈ result.callGraph.reachable.toList ∧
      callee ∈ result.callGraph.calleesOf ⟨frame.method, position⟩ := by
  obtain ⟨position', call, hpoint', -, hderives⟩ := hwaits.calls
  cases hpoint.symm.trans hpoint'
  exact ⟨h.mem_reachable (.callee hderives),
    PointsTo.Result.mem_calleesOf_callGraph_iff.mpr (h.complete.mem_calleesOf hderives)⟩

variable {trail : PointsTo.Trail} {origins : List PointsTo.Origin} {machine : Machine}
  {numbers : Numbers} {method : Method} {position : Nat}

namespace CoversMachine

theorem enter (hcovers : CoversMachine program result facts machine numbers)
    (h : Analyzed program config policy result graph aliases facts)
    (htracks : Tracks program policy origins trail machine)
    (hmethod : program.getMethod machine.frame.method = .ok method)
    (hpoint : machine.frame.point = .entry) :
    CoversMachine program result facts { machine with
      frame := { machine.frame with point := pointAt method.stmts.size 0 } } numbers where
  vars := by
    have hreachable := h.mem_reachable htracks.frame.reachable
    have hnode : Node.entry machine.frame.method ∈ graph.nodes :=
      h.node_mem hreachable hmethod trivial
    have hinput := hcovers.vars
    rw [hpoint, ← Node.entry, ← h.output_through hnode rfl] at hinput
    exact hinput.mono (h.solved.flows_normal hreachable hmethod mem_succs_entry rfl)
  callers := hcovers.callers
  cells := hcovers.cells

theorem execute (hcovers : CoversMachine program result facts machine numbers)
    (h : Analyzed program config policy result graph aliases facts)
    (htracks : Tracks program policy origins trail machine) {stmt : Stmt} {next : Point}
    {index : Int32} (hat : machine.Executes program method position stmt)
    (hplain : stmt.isCall = false)
    (hnext : Leads method.stmts.size position stmt next)
    (hready : numbers.Ready program (cell? machine.frame.vars index stmt) index stmt) :
    CoversMachine program result facts (machine.execute position stmt index next)
      (numbers.execute program (cell? machine.frame.vars index stmt) stmt) := by
  have hreachable := h.mem_reachable htracks.frame.reachable
  have hvars := h.complete.coversVars htracks htracks.frame
  have hinput := hcovers.vars
  rw [hat.point] at hinput
  have houtput := h.covers_execute hreachable hat.getStmt hplain hready hinput hcovers.cells hvars
  refine ⟨?_, ?_, ?_⟩
  · rw [Machine.execute_method, Machine.execute_point]
    have hkind := innerKind_stmt machine.frame.method hat.stmt
    rw [hplain] at hkind
    exact houtput.mono
      (h.solved.flows_normal hreachable hat.getMethod (hnext.mem_succs hat.stmt) hkind)
  · rw [Machine.execute_callers]
    exact hcovers.callers
  · obtain ⟨more, hmore⟩ := machine.exists_execute_objects position stmt index next
    intro cell c hc
    rw [hmore]
    exact (coversCells_stored hreachable hat.getStmt hready houtput hcovers.cells hvars cell c
      hc).append more

theorem call (hcovers : CoversMachine program result facts machine numbers)
    (h : Analyzed program config policy result graph aliases facts)
    (htracks : Tracks program policy origins trail machine) {call : Call} {callee : MethodId}
    {target : Method} {vars : Env Ref} {index : Int32}
    (hat : machine.Executes program method position (.invoke call))
    (hcall : Step program index machine (machine.call callee vars))
    (htarget : program.getMethod callee = .ok target) :
    CoversMachine program result facts (machine.call callee vars)
      (numbers.call program call target) := by
  have hreachable := h.mem_reachable htracks.frame.reachable
  obtain ⟨_, _, hnext⟩ := htracks.step hcall
  obtain ⟨hentered, hcallee⟩ : callee ∈ result.callGraph.reachable.toList ∧
      callee ∈ result.callGraph.calleesOf ⟨machine.frame.method, position⟩ := by
    cases hnext.callers with
    | cons hwaits => exact h.callee_of_waits hat.point hwaits
  have hinput := hcovers.vars
  rw [hat.point] at hinput
  have houtput : (facts.output (.ofSite ⟨machine.frame.method, position⟩)).Covers numbers.vars := by
    rw [h.output_call hreachable hat.getStmt]
    exact hinput
  refine ⟨?_, .cons ?_ hcovers.callers, hcovers.cells⟩
  · have hflows := h.solved.flows _ _ (.call hreachable hat.getStmt hcallee hentered)
      (along_call hat.getStmt htarget)
    exact ((covers_boundFact houtput _ _).mono hflows).carried
  · intro position' call' hpoint hstmt
    cases hat.point.symm.trans hpoint
    cases hat.getStmt.symm.trans hstmt
    exact covers_keptFact houtput call.result

theorem back (hcovers : CoversMachine program result facts machine numbers)
    (h : Analyzed program config policy result graph aliases facts)
    (htracks : Tracks program policy origins trail machine) {call : Call} {caller : Frame}
    {callers : List Frame} {vars : Env Int32} {rest : List (Env Int32)}
    (hpoint : machine.frame.point = .exit) (hcallers : machine.callers = caller :: callers)
    (hat : Machine.Executes program { machine with frame := caller } method position
      (.invoke call)) (hnumbers : numbers.callers = vars :: rest) :
    CoversMachine program result facts
      (machine.back caller callers method.stmts.size position call)
      (numbers.back program call machine.frame.returned vars rest) := by
  have hstacked := htracks.callers
  have hsuspended := hcovers.callers
  rw [hcallers] at hstacked hsuspended
  rw [hnumbers] at hsuspended
  obtain ⟨hkept, hrest⟩ := List.forall₂_cons.mp hsuspended
  refine ⟨?_, hrest, hcovers.cells⟩
  cases hstacked with
  | cons hwaits =>
    have hreachable := h.mem_reachable hwaits.placed.reachable
    obtain ⟨hentered, hcallee⟩ := h.callee_of_waits hat.point hwaits
    have hleads : Leads method.stmts.size position (.invoke call)
        (pointAt method.stmts.size (position + 1)) := rfl
    have hsuccs : ⟨caller.method, pointAt method.stmts.size (position + 1)⟩ ∈
        (Cfg.ofStmts caller.method method.stmts).succs (.stmt caller.method position) :=
      hleads.mem_succs hat.stmt
    refine covers_received ?_ fun lhs v hlhs hv hint => ?_
    · exact (hkept position call hat.point hat.getStmt).mono
        (h.solved.flows_kept hreachable hat.getMethod hat.stmt hsuccs)
    · obtain ⟨returned, hreturned, hmem⟩ := htracks.frame.returned v hv
      obtain ⟨entered, henter⟩ := h.built.exists_getMethod hentered
      have hnode : Node.exit machine.frame.method ∈ graph.nodes :=
        h.node_mem hentered henter trivial
      have houtput := hcovers.vars
      rw [hpoint, ← Node.exit, ← h.output_through hnode rfl] at houtput
      have hflows := h.solved.flows _ _
        (.ret hreachable hat.getMethod hat.stmt hcallee hentered hsuccs)
        (along_ret hat.getStmt hreturned) lhs
      simp only [resultFact, hlhs, hint, if_true, Fact.get_update] at hflows
      exact (allows_returnedValue houtput hmem).mono hflows

/-- A step goes on with numbers that the facts cover. -/
theorem step (hcovers : CoversMachine program result facts machine numbers)
    (h : Analyzed program config policy result graph aliases facts)
    (htracks : Tracks program policy origins trail machine) {index : Int32} {next : Machine}
    {numbers' : Numbers} (hstep : NumericStep program index machine numbers next numbers') :
    CoversMachine program result facts next numbers' := by
  cases hstep with
  | enter hmethod hpoint => exact hcovers.enter h htracks hmethod hpoint
  | execute hat hplain hnext hready => exact hcovers.execute h htracks hat hplain hnext hready
  | call hat hcall htarget => exact hcovers.call h htracks hat hcall htarget
  | back hpoint hcallers hat hnumbers => exact hcovers.back h htracks hpoint hcallers hat hnumbers

/-- At the start of a run only parameters of the entry method have numbers. -/
theorem initial (h : Analyzed program config policy result graph aliases facts) {entry : MethodId}
    {vars : Env Int32} (hentry : entry ∈ program.entries)
    (hmethod : program.getMethod entry = .ok method)
    (hvars : ∀ v c, vars v = some c → v ∈ method.params ∧ program.holdsInt v = true) :
    CoversMachine program result facts (.initial entry) ⟨vars, [], fun _ => none⟩ where
  vars := by
    have hentries : entry ∈ result.entries := h.complete.entries ▸ hentry
    obtain ⟨fact, hfact, -, hnac⟩ := Constants.exists_boundaryFact hmethod
    have hle := h.solved.boundary entry
      (PointsTo.Result.mem_entries_callGraph_iff.mpr hentries)
      (PointsTo.Result.mem_reachable_callGraph_iff.mpr (.inl hentries)) fact hfact
    intro v c hc
    obtain ⟨hparam, hint⟩ := hvars v c hc
    refine le_trans ?_ (hle v)
    rw [hnac v hparam hint]
    exact Value.le_nac _
  callers := .nil
  cells := fun _ _ hc => by cases hc

end CoversMachine

end Steps

/-- The facts cover the numbers of every run. -/
theorem Analyzed.coversMachine (h : Analyzed program config policy result graph aliases facts)
    {machine : Machine} {numbers : Numbers} (hruns : NumericRuns program machine numbers) :
    CoversMachine program result facts machine numbers := by
  induction hruns with
  | start hentry hmethod hvars => exact .initial h hentry hmethod hvars
  | step hruns index hstep ih =>
    obtain ⟨origins, trail, htracks⟩ := hruns.runs.tracks policy
    exact ih.step h htracks hstep

/-- With settings that pass their check, both analyses give a result, and wherever a run
stands, the fact before that node gives each variable the number that it holds, or says
that it is not a constant. -/
theorem sound_for_numeric_runs (program : Program) (config : Config.PointsTo)
    (dataflow : Config.Dataflow) (hvalid : config.validate = .ok ()) :
    ∃ result facts, PointsTo.run program config = .ok result ∧
      analyze program dataflow result = .ok facts ∧
      ∀ machine numbers, NumericRuns program machine numbers →
        ∃ fact, facts.before.get? ⟨machine.frame.method, machine.frame.point⟩ = some fact ∧
          ∀ v c, numbers.vars v = some c → fact.get v = .constant c ∨ fact.get v = .nac := by
  obtain ⟨result, hrun, hcomplete⟩ := PointsTo.exists_run program hvalid
  obtain ⟨graph, aliases, facts, hbuilt, haliases, hpaired, hanalyze, hsolved⟩ :=
    exists_analyze dataflow hcomplete.reaches hcomplete.entries
  have h : Analyzed program dataflow (.ofConfig config) result graph aliases facts :=
    ⟨hcomplete, hbuilt, haliases, hpaired, hsolved⟩
  refine ⟨result, facts, hrun, hanalyze, fun machine numbers hruns => ?_⟩
  obtain ⟨origins, trail, htracks⟩ := hruns.runs.tracks (.ofConfig config)
  obtain ⟨found, hfound, hinside⟩ := hruns.runs.inside
  have hnode : ⟨machine.frame.method, machine.frame.point⟩ ∈ graph.nodes :=
    h.node_mem (h.mem_reachable htracks.frame.reachable) hfound hinside
  refine ⟨_, hsolved.before _ hnode, fun v c hc => ?_⟩
  exact Value.constant_le_iff.mp ((h.coversMachine hruns).vars v c hc)

/-- A class with a field whose `main` stores seven in the field and loads it again. -/
def counterListing : Listing where
  classes := #[{ id := ⟨0⟩, name := "Counter", superClass := none, interfaces := [],
                 isInterface := false, isAbstract := false, methods := [⟨0⟩] }]
  methods := #[
    { id := ⟨0⟩, name := "main", declaringClass := ⟨0⟩, subsignature := "main()", isStatic := true,
      isAbstract := false, this := none, params := [],
      stmts := #[.alloc ⟨0⟩ (.object ⟨0⟩), .assign ⟨1⟩ (.literal 7),
        .storeField (some ⟨0⟩) ⟨0⟩ ⟨1⟩, .loadField ⟨2⟩ (some ⟨0⟩) ⟨0⟩, .nop] }]
  fields := #[⟨⟨0⟩, "count", ⟨0⟩, .int, false⟩]
  vars := #[⟨⟨0⟩, "a", .object ⟨0⟩, ⟨0⟩⟩, ⟨⟨1⟩, "n", .int, ⟨0⟩⟩, ⟨⟨2⟩, "m", .int, ⟨0⟩⟩]
  entries := [⟨0⟩]

/-- The program of `counterListing`. -/
def counterProgram : Program where
  listing := counterListing
  sound := by decide
  index := Index.ofListing counterListing
  index_eq := rfl

/-- A run of `counterProgram` right after its load: the loaded number is seven. -/
theorem exists_numericRuns_counter : ∃ machine numbers,
    NumericRuns counterProgram machine numbers ∧ machine.frame.method = ⟨0⟩ ∧
      machine.frame.point = .stmt 4 ∧ numbers.vars ⟨2⟩ = some 7 := by
  have hmain : counterProgram.getMethod ⟨0⟩ = .ok counterListing.methods[0] := rfl
  have hstart : NumericRuns counterProgram (.initial ⟨0⟩) ⟨fun _ => none, [], fun _ => none⟩ :=
    .start (by decide) hmain nofun
  have hentered := hstart.step 0 (.enter hmain rfl)
  have hcreated := hentered.step 0 (.execute ⟨hmain, rfl, rfl⟩ rfl rfl
    ⟨nofun, nofun⟩ trivial)
  have hcounted := hcreated.step 0 (.execute ⟨hmain, rfl, rfl⟩ rfl rfl
    ⟨nofun, fun _ _ _ => rfl⟩ trivial)
  have hstored := hcounted.step 0 (.execute ⟨hmain, rfl, rfl⟩ rfl rfl
    ⟨nofun, nofun⟩ trivial)
  have hloaded := hstored.step 0 (.execute ⟨hmain, rfl, rfl⟩ rfl rfl
    ⟨nofun, fun _ _ _ => rfl⟩ trivial)
  exact ⟨_, _, hloaded, rfl, rfl, rfl⟩

/-- The facts of `counterProgram` allow the loaded variable to be seven. -/
theorem sound_for_numeric_runs_counter : Config.PointsTo.standard.validate = .ok () ∧
    ∃ result facts fact, PointsTo.run counterProgram .standard = .ok result ∧
      analyze counterProgram .standard result = .ok facts ∧
      facts.before.get? (.stmt ⟨0⟩ 4) = some fact ∧
      (fact.get ⟨2⟩ = .constant 7 ∨ fact.get ⟨2⟩ = .nac) := by
  have hvalid : Config.PointsTo.standard.validate = .ok () := by decide
  obtain ⟨machine, numbers, hruns, hmethod, hpoint, hholds⟩ := exists_numericRuns_counter
  obtain ⟨result, facts, hrun, hanalyze, hsound⟩ :=
    sound_for_numeric_runs counterProgram .standard .standard hvalid
  obtain ⟨fact, hfact, hcovers⟩ := hsound machine numbers hruns
  rw [hmethod, hpoint] at hfact
  exact ⟨hvalid, result, facts, fact, hrun, hanalyze, hfact, hcovers ⟨2⟩ 7 hholds⟩

end ObjectFlow.Dataflow.InterConstants
