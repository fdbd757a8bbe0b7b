import ObjectFlow.PointsTo.Pointer
import ObjectFlow.Proofs.CallGraph.Dispatch
import ObjectFlow.Proofs.PointsTo.Selection

/-!
# The rules of the points-to analysis

What the analysis says is built from four kinds of judgements: a method may run under a
context, a place may point to an object, all that one place points to another place
points to as well, and a call may run a method.  `Derives` is the least set of judgements
that the rules of the analysis allow.  Here a context is the sequence of its marks and an
object is named by its context and its allocation, so that the rules speak of no table of
a run.
-/

namespace ObjectFlow.PointsTo

/-- A part of a context, where an object is named by its allocation. -/
inductive Mark where
  | callSite (site : Site)
  | object (alloc : Site)
  | type (type : ClassId)
  deriving DecidableEq, Repr

/-- A context, oldest mark first. -/
abbrev Trail := List Mark

/-- An abstract object: its context and its allocation. -/
structure Origin where
  context : Trail
  alloc : Site
  deriving DecidableEq, Repr

/-- What the analysis can say, where contexts are named by `κ` and objects by `ω`. -/
inductive Judgement (κ ω : Type) where
  | reachable (context : κ) (method : MethodId)
  | pointsTo (place : Place κ ω) (object : ω)
  | flows (source target : Place κ ω)
  | calls (kind : CallKind) (context : κ) (site : Site) (calleeContext : κ) (callee : MethodId)
  deriving DecidableEq, Repr

/-- A call at `site` under `context` runs `callee` under `trail` when its receiver is
`object`. -/
structure Dispatches (program : Program) (policy : Policy) (context : Trail) (site : Site)
    (call : Call) (object : Origin) (trail : Trail) (callee : MethodId) : Prop where
  resolved : ∃ lhs type, program.getStmt object.alloc = .ok (.alloc lhs type) ∧
    program.callee (some type) call.kind call.target = .ok (some callee)
  selected : ∃ container, program.getMethod object.alloc.method = .ok container ∧
    trail = policy.instanceParts context object.context (.callSite site) (.object object.alloc)
      (.type container.declaringClass)

/-- The judgements that the rules of the analysis allow. -/
inductive Derives (program : Program) (policy : Policy) : Judgement Trail Origin → Prop where
  | entry {entry : MethodId} (hentry : entry ∈ program.entries) :
    Derives program policy (.reachable [] entry)
  | alloc {context : Trail} {site : Site} {lhs : VarId} {type : Ty}
    (hreachable : Derives program policy (.reachable context site.method))
    (hstmt : program.getStmt site = .ok (.alloc lhs type)) :
    Derives program policy (.pointsTo (.var context lhs) ⟨policy.heapParts context, site⟩)
  | copy {context : Trail} {site : Site} {lhs rhs : VarId}
    (hreachable : Derives program policy (.reachable context site.method))
    (hstmt : program.getStmt site = .ok (.copy lhs rhs)) :
    Derives program policy (.flows (.var context rhs) (.var context lhs))
  | staticLoad {context : Trail} {site : Site} {lhs : VarId} {field : FieldId}
    (hreachable : Derives program policy (.reachable context site.method))
    (hstmt : program.getStmt site = .ok (.loadField lhs none field)) :
    Derives program policy (.flows (.staticField field) (.var context lhs))
  | staticStore {context : Trail} {site : Site} {field : FieldId} {rhs : VarId}
    (hreachable : Derives program policy (.reachable context site.method))
    (hstmt : program.getStmt site = .ok (.storeField none field rhs)) :
    Derives program policy (.flows (.var context rhs) (.staticField field))
  | staticCall {context : Trail} {site : Site} {call : Call} {callee : MethodId}
    (hreachable : Derives program policy (.reachable context site.method))
    (hstmt : program.getStmt site = .ok (.invoke call)) (hstatic : call.isStatic = true)
    (hcallee : program.callee none call.kind call.target = .ok (some callee)) :
    Derives program policy
      (.calls call.kind context site (policy.staticParts context (.callSite site)) callee)
  | fieldLoad {context : Trail} {base : VarId} {object : Origin} {site : Site} {lhs : VarId}
    {field : FieldId} (hbase : Derives program policy (.pointsTo (.var context base) object))
    (hstmt : program.getStmt site = .ok (.loadField lhs (some base) field)) :
    Derives program policy (.flows (.instanceField object field) (.var context lhs))
  | fieldStore {context : Trail} {base : VarId} {object : Origin} {site : Site} {rhs : VarId}
    {field : FieldId} (hbase : Derives program policy (.pointsTo (.var context base) object))
    (hstmt : program.getStmt site = .ok (.storeField (some base) field rhs)) :
    Derives program policy (.flows (.var context rhs) (.instanceField object field))
  | arrayLoad {context : Trail} {base : VarId} {object : Origin} {site : Site}
    {lhs index : VarId} (hbase : Derives program policy (.pointsTo (.var context base) object))
    (hstmt : program.getStmt site = .ok (.loadArray lhs base index)) :
    Derives program policy (.flows (.arraySlots object) (.var context lhs))
  | arrayStore {context : Trail} {base : VarId} {object : Origin} {site : Site}
    {index rhs : VarId} (hbase : Derives program policy (.pointsTo (.var context base) object))
    (hstmt : program.getStmt site = .ok (.storeArray base index rhs)) :
    Derives program policy (.flows (.var context rhs) (.arraySlots object))
  | receiverCall {context : Trail} {base : VarId} {object : Origin} {site : Site} {call : Call}
    {trail : Trail} {callee : MethodId}
    (hbase : Derives program policy (.pointsTo (.var context base) object))
    (hstmt : program.getStmt site = .ok (.invoke call)) (hreceiver : call.base = some base)
    (hdispatch : Dispatches program policy context site call object trail callee) :
    Derives program policy (.calls call.kind context site trail callee)
  | this {context : Trail} {base : VarId} {object : Origin} {site : Site} {call : Call}
    {trail : Trail} {callee : MethodId} {method : Method} {this : VarId}
    (hbase : Derives program policy (.pointsTo (.var context base) object))
    (hstmt : program.getStmt site = .ok (.invoke call)) (hreceiver : call.base = some base)
    (hdispatch : Dispatches program policy context site call object trail callee)
    (hmethod : program.getMethod callee = .ok method) (hthis : method.this = some this) :
    Derives program policy (.pointsTo (.var trail this) object)
  | callee {kind : CallKind} {context trail : Trail} {site : Site} {callee : MethodId}
    (hcall : Derives program policy (.calls kind context site trail callee)) :
    Derives program policy (.reachable trail callee)
  | argument {kind : CallKind} {context trail : Trail} {site : Site} {callee : MethodId}
    {call : Call} {method : Method} {arg param : VarId}
    (hcall : Derives program policy (.calls kind context site trail callee))
    (hstmt : program.getStmt site = .ok (.invoke call))
    (hmethod : program.getMethod callee = .ok method)
    (hbound : (arg, param) ∈ call.args.zip method.params) :
    Derives program policy (.flows (.var context arg) (.var trail param))
  | result {kind : CallKind} {context trail : Trail} {site : Site} {callee : MethodId}
    {call : Call} {returned : List VarId} {value result : VarId}
    (hcall : Derives program policy (.calls kind context site trail callee))
    (hstmt : program.getStmt site = .ok (.invoke call))
    (hreturned : program.returnVars callee = .ok returned) (hvalue : value ∈ returned)
    (hresult : call.result = some result) :
    Derives program policy (.flows (.var trail value) (.var context result))
  | flow {source target : Place Trail Origin} {object : Origin}
    (hflow : Derives program policy (.flows source target))
    (hsource : Derives program policy (.pointsTo source object)) :
    Derives program policy (.pointsTo target object)

/-- The variable or field of a place is one of the program. -/
def Place.InRange (program : Program) {κ ω : Type} : Place κ ω → Prop
  | .var _ v => v.index < program.listing.vars.size
  | .staticField field => field.index < program.listing.fields.size
  | .instanceField _ field => field.index < program.listing.fields.size
  | .arraySlots _ => True

/-- The methods, statements, variables and fields of a judgement are those of the
program. -/
def Judgement.InRange (program : Program) : Judgement Trail Origin → Prop
  | .reachable _ method => method.index < program.listing.methods.size
  | .pointsTo place object => place.InRange program ∧
      ∃ lhs type, program.getStmt object.alloc = .ok (.alloc lhs type)
  | .flows source target => source.InRange program ∧ target.InRange program
  | .calls kind _ site _ callee => callee.index < program.listing.methods.size ∧
      ∃ call, program.getStmt site = .ok (.invoke call) ∧ call.kind = kind

theorem field_lt_of_loadField {program : Program} {site : Site} {lhs : VarId}
    {base : Option VarId} {field : FieldId}
    (h : program.getStmt site = .ok (.loadField lhs base field)) :
    field.index < program.listing.fields.size := by
  obtain ⟨length, hnone⟩ := Program.operandDefect?_of_getStmt h
  simpa [Listing.operandDefect?, Listing.hasField] using hnone

theorem field_lt_of_storeField {program : Program} {site : Site} {rhs : VarId}
    {base : Option VarId} {field : FieldId}
    (h : program.getStmt site = .ok (.storeField base field rhs)) :
    field.index < program.listing.fields.size := by
  obtain ⟨length, hnone⟩ := Program.operandDefect?_of_getStmt h
  simpa [Listing.operandDefect?, Listing.hasField] using hnone

theorem callee_lt_of_eq {program : Program} {receiver : Option Ty} {kind : CallKind}
    {target : MethodRef} {callee : MethodId}
    (hresolves : program.Resolves (program.callee receiver kind target))
    (hcallee : program.callee receiver kind target = .ok (some callee)) :
    callee.index < program.listing.methods.size := by
  obtain ⟨found, hfound, hlt⟩ := hresolves
  rw [hcallee] at hfound
  cases hfound
  exact hlt callee rfl

/-- A call that is dispatched on an object of the program runs a method of the program. -/
theorem Dispatches.callee_lt {program : Program} {policy : Policy} {context trail : Trail}
    {site : Site} {call : Call} {object : Origin} {callee : MethodId}
    (h : Dispatches program policy context site call object trail callee)
    (hstmt : program.getStmt site = .ok (.invoke call)) :
    callee.index < program.listing.methods.size := by
  obtain ⟨lhs, type, halloc, hcallee⟩ := h.resolved
  refine callee_lt_of_eq (Program.resolves_callee program call.kind
    (Program.call_of_getStmt hstmt).1 ?_) hcallee
  intro found hfound
  cases hfound
  exact Program.hasType_of_alloc halloc

/-- What the rules allow speaks of the program only. -/
theorem Derives.inRange {program : Program} {policy : Policy} {j : Judgement Trail Origin}
    (h : Derives program policy j) : j.InRange program := by
  have hvar := fun {site stmt} (hstmt : program.getStmt site = .ok stmt) {v : VarId}
    (hv : v ∈ stmt.uses ++ stmt.writes?.toList) => Program.var_lt_of_getStmt hstmt hv
  induction h with
  | entry hentry => exact program.inRange.entry _ hentry
  | alloc _ hstmt _ =>
    exact ⟨hvar hstmt (by simp [Stmt.writes?]), _, _, hstmt⟩
  | copy _ hstmt _ =>
    exact ⟨hvar hstmt (by simp [Stmt.uses]), hvar hstmt (by simp [Stmt.writes?])⟩
  | staticLoad _ hstmt _ =>
    exact ⟨field_lt_of_loadField hstmt, hvar hstmt (by simp [Stmt.writes?])⟩
  | staticStore _ hstmt _ =>
    exact ⟨hvar hstmt (by simp [Stmt.uses]), field_lt_of_storeField hstmt⟩
  | staticCall _ hstmt _ hcallee _ =>
    exact ⟨callee_lt_of_eq (Program.resolves_callee program _ (Program.call_of_getStmt hstmt).1
      (by simp)) hcallee, _, hstmt, rfl⟩
  | fieldLoad _ hstmt _ =>
    exact ⟨field_lt_of_loadField hstmt, hvar hstmt (by simp [Stmt.writes?])⟩
  | fieldStore _ hstmt _ =>
    exact ⟨hvar hstmt (by simp [Stmt.uses]), field_lt_of_storeField hstmt⟩
  | arrayLoad _ hstmt _ => exact ⟨trivial, hvar hstmt (by simp [Stmt.writes?])⟩
  | arrayStore _ hstmt _ => exact ⟨hvar hstmt (by simp [Stmt.uses]), trivial⟩
  | receiverCall _ hstmt _ hdispatch _ => exact ⟨hdispatch.callee_lt hstmt, _, hstmt, rfl⟩
  | this _ _ _ _ hmethod hthis ih =>
    refine ⟨program.inRange.method_local (Program.getMethod_eq_ok_iff.mp hmethod) _ ?_, ih.2⟩
    simp [hthis]
  | callee _ ih => exact ih.1
  | argument _ hstmt hmethod hbound _ =>
    obtain ⟨harg, hparam⟩ := List.of_mem_zip hbound
    refine ⟨hvar hstmt (by simp [Stmt.uses, harg]), ?_⟩
    exact program.inRange.method_local (Program.getMethod_eq_ok_iff.mp hmethod) _
      (by simp [hparam])
  | result _ hstmt hreturned hvalue hresult ih =>
    obtain ⟨returned, hfound, hmem⟩ := Program.exists_returnVars ih.1
    rw [hreturned] at hfound
    cases hfound
    obtain ⟨site, stmt, -, hreturn, hvalue⟩ := (hmem _).mp hvalue
    refine ⟨hvar hreturn ?_, hvar hstmt (by simp [Stmt.writes?, hresult])⟩
    cases stmt <;> simp_all [Stmt.returned?, Stmt.uses]
  | flow _ _ ihFlow ihSource => exact ⟨ihFlow.2, ihSource.2⟩

end ObjectFlow.PointsTo
