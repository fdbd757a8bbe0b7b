import ObjectFlow.Proofs.Execution.Machine
import ObjectFlow.Proofs.PointsTo.Derivation

/-!
# Runs follow the rules of the points-to analysis

Every object of a run is given an abstract object, its origin, and every frame a context.
The origins are listed in the order of creation, so that a reference finds the origin of
its object by its number.  What a variable or a cell holds is then something that the
rules let it point to, and every frame waits at a call that the rules derive.
-/

namespace ObjectFlow.Execution

open PointsTo (Derives Origin Policy Trail Place)

section

variable (program : Program) (policy : Policy) (origins : List Origin)

/-- What a place holds, it may point to. -/
def Admits (place : Place Trail Origin) (value : Option Ref) : Prop :=
  ∀ r, value = some r → ∃ origin, origins[r]? = some origin ∧
    Derives program policy (.pointsTo place origin)

/-- The place that stands for a cell. -/
inductive Cell.At : Cell → Place Trail Origin → Prop where
  | staticField (field : FieldId) : Cell.At (.staticField field) (.staticField field)
  | field {object : Ref} {origin : Origin} (horigin : origins[object]? = some origin)
    (field : FieldId) : Cell.At (.field object field) (.instanceField origin field)
  | slot {object : Ref} {origin : Origin} (horigin : origins[object]? = some origin)
    (index : Int32) : Cell.At (.slot object index) (.arraySlots origin)

/-- The variables of a frame under a context hold what they may point to. -/
def AdmitsVars (trail : Trail) (vars : Env Ref) : Prop :=
  ∀ v, Admits program policy origins (.var trail v) (vars v)

/-- A cell that holds something belongs to an object, and holds what its place may point
to. -/
def AdmitsCells (cells : Cells Ref) : Prop :=
  ∀ cell r, cells cell = some r →
    ∃ place, cell.At origins place ∧ Admits program policy origins place (some r)

/-- A frame runs under a context. -/
structure Placed (trail : Trail) (frame : Frame) : Prop where
  reachable : Derives program policy (.reachable trail frame.method)
  vars : AdmitsVars program policy origins trail frame.vars
  returned : ∀ v, frame.returned = some v →
    ∃ values, program.returnVars frame.method = .ok values ∧ v ∈ values

/-- A frame under a context waits for a call of a method under another context. -/
structure Waits (trail : Trail) (frame : Frame) (calleeTrail : Trail) (callee : MethodId) :
    Prop where
  placed : Placed program policy origins trail frame
  calls : ∃ index call, frame.point = .stmt index ∧
    program.getStmt ⟨frame.method, index⟩ = .ok (.invoke call) ∧
    Derives program policy (.calls call.kind trail ⟨frame.method, index⟩ calleeTrail callee)

/-- Every frame of a stack waits for the one above it, which at the top is a method under a
context. -/
inductive Stacked : Trail → MethodId → List Frame → Prop where
  | nil (trail : Trail) (method : MethodId) : Stacked trail method []
  | cons {trail calleeTrail : Trail} {frame : Frame} {callee : MethodId} {rest : List Frame}
    (hwaits : Waits program policy origins trail frame calleeTrail callee)
    (hrest : Stacked trail frame.method rest) : Stacked calleeTrail callee (frame :: rest)

/-- An object comes from an allocation of the program, which is that of its origin. -/
structure Created (object : Object) (origin : Origin) : Prop where
  alloc : origin.alloc = object.alloc
  stmt : ∃ lhs, program.getStmt object.alloc = .ok (.alloc lhs object.type)

/-- A machine whose objects have the given origins and whose running frame has the given
context does what the rules allow. -/
structure Tracks (trail : Trail) (machine : Machine) : Prop where
  objects : List.Forall₂ (Created program) machine.objects origins
  cells : AdmitsCells program policy origins machine.cells
  frame : Placed program policy origins trail machine.frame
  callers : Stacked program policy origins trail machine.frame.method machine.callers

end

variable {program : Program} {policy : Policy} {origins : List Origin} {trail : Trail}

section Admits

theorem Admits.flow {source target : Place Trail Origin} {value : Option Ref}
    (h : Admits program policy origins source value)
    (hflow : Derives program policy (.flows source target)) :
    Admits program policy origins target value := by
  intro r hr
  obtain ⟨origin, horigin, hpoints⟩ := h r hr
  exact ⟨origin, horigin, .flow hflow hpoints⟩

theorem getElem?_append_of_eq_some {α : Type} {items : List α} {i : Nat} {item : α}
    (h : items[i]? = some item) (more : List α) : (items ++ more)[i]? = some item := by
  rw [List.getElem?_append_left (List.getElem?_eq_some_iff.mp h).1, h]

theorem Admits.append {place : Place Trail Origin} {value : Option Ref}
    (h : Admits program policy origins place value) (more : List Origin) :
    Admits program policy (origins ++ more) place value := by
  intro r hr
  obtain ⟨origin, horigin, hpoints⟩ := h r hr
  exact ⟨origin, getElem?_append_of_eq_some horigin more, hpoints⟩

theorem AdmitsVars.update {vars : Env Ref} (h : AdmitsVars program policy origins trail vars)
    {v : VarId} {value : Option Ref} (hvalue : Admits program policy origins (.var trail v) value) :
    AdmitsVars program policy origins trail (Function.update vars v value) := by
  intro w
  by_cases hw : w = v
  · subst hw
    simpa using hvalue
  · simpa [Function.update_of_ne hw] using h w

theorem Cell.At.functional {cell : Cell} {left right : Place Trail Origin}
    (hleft : cell.At origins left) (hright : cell.At origins right) : left = right := by
  cases hleft with
  | staticField => cases hright; rfl
  | field horigin field =>
    cases hright with
    | field horigin' =>
      rw [horigin] at horigin'
      cases horigin'
      rfl
  | slot horigin index =>
    cases hright with
    | slot horigin' =>
      rw [horigin] at horigin'
      cases horigin'
      rfl

theorem AdmitsCells.admits {cells : Cells Ref} (h : AdmitsCells program policy origins cells)
    {cell : Cell} {place : Place Trail Origin} (hat : cell.At origins place) :
    Admits program policy origins place (cells cell) := by
  intro r hr
  obtain ⟨place', hat', hadmits⟩ := h cell r hr
  rw [hat.functional hat']
  exact hadmits r rfl

theorem AdmitsCells.update {cells : Cells Ref} (h : AdmitsCells program policy origins cells)
    {cell : Cell} {place : Place Trail Origin} {value : Option Ref} (hat : cell.At origins place)
    (hvalue : Admits program policy origins place value) :
    AdmitsCells program policy origins (Function.update cells cell value) := by
  intro other r hr
  by_cases hother : other = cell
  · subst hother
    rw [Function.update_self] at hr
    exact ⟨place, hat, hr ▸ hvalue⟩
  · rw [Function.update_of_ne hother] at hr
    exact h other r hr

end Admits

section Statement

variable {vars : Env Ref} {cells : Cells Ref} {site : Site} {stmt : Stmt}

/-- A statement leaves in the variables what they may point to. -/
theorem admitsVars_moved (hreachable : Derives program policy (.reachable trail site.method))
    (hvars : AdmitsVars program policy origins trail vars)
    (hcells : AdmitsCells program policy origins cells) (hstmt : program.getStmt site = .ok stmt)
    (index : Int32) :
    AdmitsVars program policy origins trail (moved stmt (cell? vars index stmt) vars cells) := by
  cases stmt with
  | copy lhs rhs => exact hvars.update ((hvars rhs).flow (.copy hreachable hstmt))
  | loadField lhs base field =>
    cases base with
    | none =>
      exact hvars.update ((hcells.admits (.staticField field)).flow (.staticLoad hreachable hstmt))
    | some base =>
      refine hvars.update fun value hvalue => ?_
      obtain ⟨cell, hcell, hvalue⟩ := Option.bind_eq_some_iff.mp hvalue
      obtain ⟨r, hr, rfl⟩ := Option.map_eq_some_iff.mp hcell
      obtain ⟨origin, horigin, hpoints⟩ := hvars base r hr
      exact (hcells.admits (.field horigin field)).flow (.fieldLoad hpoints hstmt) value hvalue
  | loadArray lhs base position =>
    refine hvars.update fun value hvalue => ?_
    obtain ⟨cell, hcell, hvalue⟩ := Option.bind_eq_some_iff.mp hvalue
    obtain ⟨r, hr, rfl⟩ := Option.map_eq_some_iff.mp hcell
    obtain ⟨origin, horigin, hpoints⟩ := hvars base r hr
    exact (hcells.admits (.slot horigin index)).flow (.arrayLoad hpoints hstmt) value hvalue
  | _ => exact hvars

/-- A statement leaves in the cells what they may point to. -/
theorem admitsCells_stored (hreachable : Derives program policy (.reachable trail site.method))
    (hvars : AdmitsVars program policy origins trail vars)
    (hcells : AdmitsCells program policy origins cells) (hstmt : program.getStmt site = .ok stmt)
    (index : Int32) :
    AdmitsCells program policy origins (stored stmt (cell? vars index stmt) vars cells) := by
  cases stmt with
  | storeField base field rhs =>
    cases base with
    | none =>
      exact hcells.update (.staticField field) ((hvars rhs).flow (.staticStore hreachable hstmt))
    | some base =>
      cases hbase : vars base with
      | none => simpa [stored, cell?, hbase] using hcells
      | some r =>
        obtain ⟨origin, horigin, hpoints⟩ := hvars base r hbase
        simp only [stored, cell?, hbase, Option.map_some]
        exact hcells.update (.field horigin field) ((hvars rhs).flow (.fieldStore hpoints hstmt))
  | storeArray base position rhs =>
    cases hbase : vars base with
    | none => simpa [stored, cell?, hbase] using hcells
    | some r =>
      obtain ⟨origin, horigin, hpoints⟩ := hvars base r hbase
      simp only [stored, cell?, hbase, Option.map_some]
      exact hcells.update (.slot horigin index) ((hvars rhs).flow (.arrayStore hpoints hstmt))
  | _ => exact hcells

/-- A parameter that holds something is bound to an argument that holds it. -/
theorem exists_arg_of_bound {α : Type} {args params : List VarId} {env : Env α} {param : VarId}
    {value : α} (h : bound args params env param = some value) :
    ∃ arg, (arg, param) ∈ args.zip params ∧ env arg = some value := by
  suffices hfold : ∀ (pairs : List (VarId × VarId)) (start : Env α),
      pairs.foldl (fun env' pair => Function.update env' pair.2 (env pair.1)) start param =
        some value →
      start param = some value ∨ ∃ arg, (arg, param) ∈ pairs ∧ env arg = some value by
    exact (hfold _ _ h).resolve_left (by simp)
  intro pairs
  induction pairs with
  | nil => exact fun start hstart => .inl hstart
  | cons pair pairs ih =>
    intro start hstart
    rcases ih _ hstart with hupdate | ⟨arg, hmem, harg⟩
    · replace hupdate : Function.update start pair.2 (env pair.1) param = some value := hupdate
      by_cases hparam : param = pair.2
      · subst hparam
        rw [Function.update_self] at hupdate
        exact .inr ⟨pair.1, List.mem_cons_self, hupdate⟩
      · rw [Function.update_of_ne hparam] at hupdate
        exact .inl hupdate
    · exact .inr ⟨arg, List.mem_cons_of_mem _ hmem, harg⟩

/-- The arguments of a call are what the parameters of its callee may point to. -/
theorem admitsVars_bound {calleeTrail : Trail} {call : Call} {callee : MethodId} {target : Method}
    (hvars : AdmitsVars program policy origins trail vars)
    (hstmt : program.getStmt site = .ok (.invoke call))
    (hcall : Derives program policy (.calls call.kind trail site calleeTrail callee))
    (htarget : program.getMethod callee = .ok target) :
    AdmitsVars program policy origins calleeTrail (bound call.args target.params vars) := by
  intro param r hr
  obtain ⟨arg, hbound, harg⟩ := exists_arg_of_bound hr
  exact (hvars arg).flow (.argument hcall hstmt htarget hbound) r harg

/-- The result of a call may point to what the callee returns. -/
theorem admitsVars_received {calleeTrail : Trail} {call : Call} {callee : Frame}
    (hvars : AdmitsVars program policy origins trail vars)
    (hcallee : Placed program policy origins calleeTrail callee)
    (hstmt : program.getStmt site = .ok (.invoke call))
    (hcall : Derives program policy (.calls call.kind trail site calleeTrail callee.method)) :
    AdmitsVars program policy origins trail
      (received call.result callee.returned vars callee.vars) := by
  unfold received
  split
  · next result value hresult hreturned =>
    obtain ⟨values, hvalues, hvalue⟩ := hcallee.returned value hreturned
    exact hvars.update
      ((hcallee.vars value).flow (.result hcall hstmt hvalues hvalue hresult))
  · exact hvars

end Statement

section Append

variable (more : List Origin)

theorem AdmitsVars.append {vars : Env Ref} (h : AdmitsVars program policy origins trail vars) :
    AdmitsVars program policy (origins ++ more) trail vars :=
  fun v => (h v).append more

theorem Cell.At.append {cell : Cell} {place : Place Trail Origin} (h : cell.At origins place) :
    cell.At (origins ++ more) place := by
  cases h with
  | staticField field => exact .staticField field
  | field horigin field => exact .field (getElem?_append_of_eq_some horigin more) field
  | slot horigin index => exact .slot (getElem?_append_of_eq_some horigin more) index

theorem AdmitsCells.append {cells : Cells Ref} (h : AdmitsCells program policy origins cells) :
    AdmitsCells program policy (origins ++ more) cells := by
  intro cell r hr
  obtain ⟨place, hat, hadmits⟩ := h cell r hr
  exact ⟨place, hat.append more, hadmits.append more⟩

theorem Placed.append {frame : Frame} (h : Placed program policy origins trail frame) :
    Placed program policy (origins ++ more) trail frame :=
  ⟨h.reachable, h.vars.append more, h.returned⟩

theorem Stacked.append {method : MethodId} {frames : List Frame}
    (h : Stacked program policy origins trail method frames) :
    Stacked program policy (origins ++ more) trail method frames := by
  induction h with
  | nil trail method => exact .nil trail method
  | cons hwaits _ ih => exact .cons ⟨hwaits.placed.append more, hwaits.calls⟩ ih

end Append

theorem Machine.Executes.getStmt {machine : Machine} {method : Method} {index : Nat} {stmt : Stmt}
    (h : machine.Executes program method index stmt) :
    program.getStmt ⟨machine.frame.method, index⟩ = .ok stmt :=
  Program.getStmt_eq_ok_iff.mpr ⟨method, h.getMethod, h.stmt⟩

/-- A variable that a statement returns is one of those that its method returns. -/
theorem exists_returnVars_of_returned {site : Site} {stmt : Stmt} {v : VarId}
    (hstmt : program.getStmt site = .ok stmt) (hv : stmt.returned? = some v) :
    ∃ values, program.returnVars site.method = .ok values ∧ v ∈ values := by
  obtain ⟨values, hvalues, hmem⟩ :=
    Program.exists_returnVars (Program.method_lt_of_getStmt hstmt)
  exact ⟨values, hvalues, (hmem v).mpr ⟨site, stmt, rfl, hstmt, hv⟩⟩

theorem Tracks.initial (policy : Policy) {entry : MethodId} (hentry : entry ∈ program.entries) :
    Tracks program policy [] [] (.initial entry) where
  objects := .nil
  cells := by simp [AdmitsCells, Machine.initial]
  frame := ⟨.entry hentry, by simp [AdmitsVars, Admits, Machine.initial],
    by simp [Machine.initial]⟩
  callers := .nil _ _

namespace Tracks

variable {machine : Machine}

theorem enter (h : Tracks program policy origins trail machine) (next : Point) :
    Tracks program policy origins trail
      { machine with frame := { machine.frame with point := next } } :=
  ⟨h.objects, h.cells, ⟨h.frame.reachable, h.frame.vars, h.frame.returned⟩, h.callers⟩

/-- A created object gets the context that the policy has for the heap. -/
theorem alloc (h : Tracks program policy origins trail machine) {position : Nat} {lhs : VarId}
    {type : Ty} (hstmt : program.getStmt ⟨machine.frame.method, position⟩ = .ok (.alloc lhs type))
    (index : Int32) (next : Point) :
    Tracks program policy
      (origins ++ [⟨policy.heapParts trail, ⟨machine.frame.method, position⟩⟩]) trail
      (machine.execute position (.alloc lhs type) index next) where
  objects := List.rel_append h.objects (.cons ⟨rfl, lhs, hstmt⟩ .nil)
  cells := h.cells.append _
  frame := by
    refine ⟨h.frame.reachable, (h.frame.vars.append _).update ?_, h.frame.returned⟩
    intro r hr
    cases hr
    refine ⟨_, ?_, .alloc h.frame.reachable hstmt⟩
    simp [h.objects.length_eq]
  callers := h.callers.append _

/-- A statement that is no allocation creates nothing. -/
theorem move (h : Tracks program policy origins trail machine) {position : Nat} {stmt : Stmt}
    (hstmt : program.getStmt ⟨machine.frame.method, position⟩ = .ok stmt) (index : Int32)
    (next : Point) :
    Tracks program policy origins trail
      { machine with
        cells := stored stmt (cell? machine.frame.vars index stmt) machine.frame.vars machine.cells
        frame := { machine.frame with
          point := next
          returned := stmt.returned?
          vars := moved stmt (cell? machine.frame.vars index stmt) machine.frame.vars
            machine.cells } } where
  objects := h.objects
  cells := admitsCells_stored h.frame.reachable h.frame.vars h.cells hstmt index
  frame := ⟨h.frame.reachable,
    admitsVars_moved h.frame.reachable h.frame.vars h.cells hstmt index,
    fun _ hv => exists_returnVars_of_returned hstmt hv⟩
  callers := h.callers

theorem execute (h : Tracks program policy origins trail machine) {position : Nat} {stmt : Stmt}
    (hstmt : program.getStmt ⟨machine.frame.method, position⟩ = .ok stmt) (index : Int32)
    (next : Point) : ∃ origins',
      Tracks program policy origins' trail (machine.execute position stmt index next) := by
  cases stmt with
  | alloc lhs type => exact ⟨_, h.alloc hstmt index next⟩
  | _ => exact ⟨origins, h.move hstmt index next⟩

/-- A call puts the running frame on the stack. -/
theorem call (h : Tracks program policy origins trail machine) {position : Nat} {call : Call}
    {calleeTrail : Trail} {callee : MethodId} {vars : Env Ref}
    (hpoint : machine.frame.point = .stmt position)
    (hstmt : program.getStmt ⟨machine.frame.method, position⟩ = .ok (.invoke call))
    (hcall : Derives program policy
      (.calls call.kind trail ⟨machine.frame.method, position⟩ calleeTrail callee))
    (hvars : AdmitsVars program policy origins calleeTrail vars) :
    Tracks program policy origins calleeTrail (machine.call callee vars) where
  objects := h.objects
  cells := h.cells
  frame := ⟨.callee hcall, hvars, by simp [Machine.call]⟩
  callers := .cons ⟨h.frame, position, call, hpoint, hstmt, hcall⟩ h.callers

theorem exists_object (h : Tracks program policy origins trail machine) {r : Ref} {origin : Origin}
    (horigin : origins[r]? = some origin) :
    ∃ object, machine.objects[r]? = some object ∧ Created program object origin := by
  have hlt : r < machine.objects.length := by
    rw [h.objects.length_eq]
    exact (List.getElem?_eq_some_iff.mp horigin).1
  refine ⟨machine.objects[r], List.getElem?_eq_getElem hlt, ?_⟩
  rw [List.getElem?_eq_some_iff] at horigin
  obtain ⟨hr, rfl⟩ := horigin
  exact h.objects.get hlt hr

/-- A call on an object runs the method that the rules dispatch on its origin. -/
theorem receiverCall (h : Tracks program policy origins trail machine) {method target : Method}
    {position : Nat} {call : Call} {base : VarId} {receiver : Ref} {object : Object}
    {callee : MethodId} (hat : machine.Executes program method position (.invoke call))
    (hbase : call.base = some base) (hreceiver : machine.frame.vars base = some receiver)
    (hobject : machine.objects[receiver]? = some object)
    (hcallee : program.callee (some object.type) call.kind call.target = .ok (some callee))
    (htarget : program.getMethod callee = .ok target) :
    ∃ calleeTrail, Tracks program policy origins calleeTrail (machine.call callee
      (withThis target.this receiver (bound call.args target.params machine.frame.vars))) := by
  obtain ⟨origin, horigin, hpoints⟩ := h.frame.vars base receiver hreceiver
  obtain ⟨object', hobject', halloc, lhs, hcreated⟩ := h.exists_object horigin
  rw [hobject] at hobject'
  cases hobject'
  obtain ⟨container, hcontainer, -⟩ := Program.getStmt_eq_ok_iff.mp hcreated
  rw [← halloc] at hcreated hcontainer
  have hdispatch : PointsTo.Dispatches program policy trail ⟨machine.frame.method, position⟩ call
      origin _ callee := ⟨⟨lhs, object.type, hcreated, hcallee⟩, container, hcontainer, rfl⟩
  have hcall := Derives.receiverCall hpoints hat.getStmt hbase hdispatch
  have hbound := admitsVars_bound h.frame.vars hat.getStmt hcall htarget
  refine ⟨_, h.call hat.point hat.getStmt hcall ?_⟩
  unfold withThis
  split
  · next this hthis =>
    refine hbound.update fun r hr => ?_
    cases hr
    exact ⟨origin, horigin, .this hpoints hat.getStmt hbase hdispatch htarget hthis⟩
  · exact hbound

/-- A step goes on with what the rules allow. -/
theorem step {index : Int32} {next : Machine} (h : Tracks program policy origins trail machine)
    (hstep : Step program index machine next) :
    ∃ origins' trail', Tracks program policy origins' trail' next := by
  cases hstep with
  | enter => exact ⟨_, _, h.enter _⟩
  | execute hat =>
    obtain ⟨origins', h'⟩ := h.execute hat.getStmt index _
    exact ⟨origins', trail, h'⟩
  | staticCall hat hstatic hcallee htarget =>
    have hcall := Derives.staticCall h.frame.reachable hat.getStmt
      (by simp [Call.isStatic, hstatic]) hcallee
    exact ⟨_, _, h.call hat.point hat.getStmt hcall
      (admitsVars_bound h.frame.vars hat.getStmt hcall htarget)⟩
  | receiverCall hat _ hbase hreceiver hobject hcallee htarget =>
    obtain ⟨calleeTrail, h'⟩ := h.receiverCall hat hbase hreceiver hobject hcallee htarget
    exact ⟨origins, calleeTrail, h'⟩
  | back _ hcallers hat =>
    have hstacked := h.callers
    rw [hcallers] at hstacked
    cases hstacked with
    | cons hwaits hrest =>
      obtain ⟨position, call, hpoint, hstmt, hcall⟩ := hwaits.calls
      -- The frame waits at the call that the step goes back to.
      cases hpoint.symm.trans hat.point
      cases hstmt.symm.trans hat.getStmt
      exact ⟨_, _, h.objects, h.cells, ⟨hwaits.placed.reachable,
        admitsVars_received hwaits.placed.vars h.frame hstmt hcall, hwaits.placed.returned⟩, hrest⟩

end Tracks

section Frames

variable {method : MethodId} {frames : List Frame}

theorem Stacked.exists_placed (h : Stacked program policy origins trail method frames)
    {frame : Frame} (hmem : frame ∈ frames) :
    ∃ trail', Placed program policy origins trail' frame := by
  induction h with
  | nil => cases hmem
  | cons hwaits _ ih =>
    rcases List.mem_cons.mp hmem with rfl | hrest
    · exact ⟨_, hwaits.placed⟩
    · exact ih hrest

/-- A frame stands at a call of the method of another frame. -/
def Calls (program : Program) (policy : Policy) (callee caller : Frame) : Prop :=
  ∃ index kind trail calleeTrail, caller.point = .stmt index ∧
    Derives program policy (.calls kind trail ⟨caller.method, index⟩ calleeTrail callee.method)

theorem Stacked.isChain {frame : Frame}
    (h : Stacked program policy origins trail frame.method frames) :
    (frame :: frames).IsChain (Calls program policy) := by
  generalize hmethod : frame.method = callee at h
  induction h generalizing frame with
  | nil => exact .singleton frame
  | cons hwaits _ ih =>
    obtain ⟨index, call, hpoint, -, hcall⟩ := hwaits.calls
    exact .cons_cons ⟨index, call.kind, _, _, hpoint, hmethod ▸ hcall⟩ (ih rfl)

/-- Every live frame runs under some context. -/
theorem Tracks.exists_placed {machine : Machine}
    (h : Tracks program policy origins trail machine) {frame : Frame}
    (hmem : frame ∈ machine.frame :: machine.callers) :
    ∃ trail', Placed program policy origins trail' frame := by
  rcases List.mem_cons.mp hmem with rfl | hrest
  · exact ⟨trail, h.frame⟩
  · exact h.callers.exists_placed hrest

end Frames

/-- A run does what the rules allow. -/
theorem Runs.tracks (policy : Policy) {machine : Machine} (h : Runs program machine) :
    ∃ origins trail, Tracks program policy origins trail machine := by
  induction h with
  | start hentry => exact ⟨_, _, .initial policy hentry⟩
  | step _ index hstep ih =>
    obtain ⟨origins, trail, htracks⟩ := ih
    exact htracks.step hstep

end ObjectFlow.Execution
