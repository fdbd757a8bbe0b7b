import ObjectFlow.Proofs.PointsTo.Justification
import ObjectFlow.Proofs.Program.Locals

/-!
# What is still to be done

Within a step the solver works on a stack of tasks.  What the rules ask for is due: it is
recorded, or a task for it waits on the stack.  `State.Invariant` says that all that is
recorded is justified, and that all that follows from it in one step of the rules is due.
`Performed` says what one task does to the state, and `Invariant.perform` that it keeps
the invariant.  `Traced` says whose work the tasks are that take its place.
-/

namespace ObjectFlow.PointsTo

/-- The task does what the statement at a site asks for when it goes through a variable that
points to the object. -/
inductive Task.Serves (context : ContextId) (object : CsObjId) (site : Site) : Task → Prop where
  | access : Serves context object site (.access context object site)
  | dispatch (receiver : Receiver) (type : Ty) :
      Serves context object site (.dispatch context object receiver type site)

namespace State

variable {program : Program} {policy : Policy} {state old new : State} {stack : List Task}

/-- An object opens a task when the variable `base` points to it: a load or store that goes
through the variable, or a call, with what the object is as its receiver. -/
inductive Opens (program : Program) (state : State) (context : ContextId) (base : VarId)
    (object : CsObjId) : Task → Prop where
  | access {site : Site} {stmt : Stmt} {route : Route} (hstmt : program.getStmt site = .ok stmt)
      (hroute : stmt.route? = some (base, route)) (hheap : route ≠ .invoke) :
      Opens program state context base object (.access context object site)
  | dispatch {site : Site} {call : Call} {receiver : Receiver} {type : Ty}
      (hstmt : program.getStmt site = .ok (.invoke call)) (hbase : call.base = some base)
      (hreceiver : state.receiver program object = .ok (receiver, type)) :
      Opens program state context base object (.dispatch context object receiver type site)

/-- Whatever goes through a variable is opened by an object that the variable points to. -/
theorem exists_opens {context : ContextId} {base : VarId} {object : CsObjId} {site : Site}
    {stmt : Stmt} {route : Route} {answer : Receiver × Ty}
    (hreceiver : state.receiver program object = .ok answer)
    (hstmt : program.getStmt site = .ok stmt) (hroute : stmt.route? = some (base, route)) :
    ∃ task, state.Opens program context base object task ∧ task.Serves context object site := by
  by_cases hinvoke : route = .invoke
  · subst hinvoke
    obtain ⟨call, rfl, hbase⟩ := Stmt.exists_call_of_route hroute
    exact ⟨_, .dispatch hstmt hbase hreceiver, .dispatch _ _⟩
  · exact ⟨_, .access hstmt hroute hinvoke, .access⟩

/-- A task that is opened is one of a statement that goes through the variable. -/
theorem Opens.exists_serves {context : ContextId} {base : VarId} {object : CsObjId} {task : Task}
    (h : state.Opens program context base object task) : ∃ site stmt route,
      task.Serves context object site ∧ program.getStmt site = .ok stmt ∧
        stmt.route? = some (base, route) := by
  cases h with
  | access hstmt hroute => exact ⟨_, _, _, .access, hstmt, hroute⟩
  | dispatch hstmt hbase => exact ⟨_, _, .invoke, .dispatch _ _, hstmt, by simp [Stmt.route?, hbase]⟩

/-- A task for a judgement waits on the stack. -/
def Awaited (stack : List Task) : Judgement ContextId CsObjId → Prop
  | .reachable context method => .reach ⟨context, method⟩ ∈ stack
  | .pointsTo _ _ => False
  | .flows source target => .connect source target ∈ stack
  | .calls kind context site selected callee =>
      .link kind ⟨context, site⟩ ⟨selected, callee⟩ ∈ stack

/-- A judgement is recorded, or a task for it waits on the stack. -/
def Due (state : State) (stack : List Task) (j : Judgement ContextId CsObjId) : Prop :=
  state.Holds j ∨ Awaited stack j

/-- A place points to an object, or the object is on its way there. -/
def Points (state : State) (place : Pointer) (object : CsObjId) : Prop :=
  state.Holds (.pointsTo place object) ∨ state.Pending place object

/-- What a statement of a reachable method asks for without an object. -/
def Executed (program : Program) (policy : Policy) (state : State) (stack : List Task)
    (context : ContextId) (site : Site) : Stmt → Prop
  | .alloc lhs _ => ∃ object,
      state.Allocated policy context site object ∧ state.Points (.var context lhs) object
  | .copy lhs rhs => state.Due stack (.flows (.var context rhs) (.var context lhs))
  | .loadField lhs none field => state.Due stack (.flows (.staticField field) (.var context lhs))
  | .storeField none field rhs => state.Due stack (.flows (.var context rhs) (.staticField field))
  | .invoke call => call.isStatic = true →
      ∀ callee, program.callee none call.kind call.target = .ok (some callee) →
        ∃ selected, state.StaticContext policy context site selected ∧
          state.Due stack (.calls call.kind context site selected callee)
  | _ => True

/-- What a statement asks for when it goes through a variable that points to `object`. -/
def Accessed (program : Program) (policy : Policy) (state : State) (stack : List Task)
    (context : ContextId) (object : CsObjId) (site : Site) : Stmt → Prop
  | .loadField lhs _ field =>
      state.Due stack (.flows (.instanceField object field) (.var context lhs))
  | .storeField _ field rhs =>
      state.Due stack (.flows (.var context rhs) (.instanceField object field))
  | .loadArray lhs _ _ => state.Due stack (.flows (.arraySlots object) (.var context lhs))
  | .storeArray _ _ rhs => state.Due stack (.flows (.var context rhs) (.arraySlots object))
  | .invoke call => ∃ receiver type, state.receiver program object = .ok (receiver, type) ∧
      ∀ callee, program.callee (some type) call.kind call.target = .ok (some callee) →
        ∃ selected, state.InstanceContext policy context site receiver selected ∧
          (∀ method this, program.getMethod callee = .ok method → method.this = some this →
            state.Points (.var selected this) object) ∧
          state.Due stack (.calls call.kind context site selected callee)
  | _ => True

/-- What a task leaves behind. -/
def Effect (program : Program) (policy : Policy) (state : State) (stack : List Task) : Task → Prop
  | .reach method => state.Holds (.reachable method.context method.method)
  | .connect source target => state.Holds (.flows source target)
  | .link kind site callee =>
      state.Holds (.calls kind site.context site.site callee.context callee.method)
  | .execute context site stmt => state.Executed program policy stack context site stmt
  | .access context object site | .dispatch context object _ _ site =>
      ∀ stmt, program.getStmt site = .ok stmt →
        state.Accessed program policy stack context object site stmt

/-- Everything that a judgement asks for is due. -/
def Covered (program : Program) (policy : Policy) (state : State) (stack : List Task) :
    Judgement ContextId CsObjId → Prop
  | .reachable context method => ∀ site stmt, site.method = method →
      program.getStmt site = .ok stmt →
        .execute context site stmt ∈ stack ∨
          state.Effect program policy stack (.execute context site stmt)
  | .pointsTo place object => ∀ context base site stmt route, place = .var context base →
      program.getStmt site = .ok stmt → stmt.route? = some (base, route) →
        ∃ task : Task, task.Serves context object site ∧
          (task ∈ stack ∨ state.Effect program policy stack task)
  | .flows source target => ∀ object, state.Holds (.pointsTo source object) →
      state.Points target object
  | .calls _ context site selected callee => state.Due stack (.reachable selected callee) ∧
      (∀ call method arg param, program.getStmt site = .ok (.invoke call) →
        program.getMethod callee = .ok method → (arg, param) ∈ call.args.zip method.params →
          state.Due stack (.flows (.var context arg) (.var selected param))) ∧
      ∀ call returned value result, program.getStmt site = .ok (.invoke call) →
        program.returnVars callee = .ok returned → value ∈ returned →
          call.result = some result →
            state.Due stack (.flows (.var selected value) (.var context result))

/-- What holds between two tasks. -/
structure Invariant (program : Program) (policy : Policy) (state : State) (stack : List Task) :
    Prop where
  orderly : state.Orderly program policy
  justified : ∀ j, state.Holds j → state.Justified program policy j
  pending : ∀ place object, state.Pending place object →
    state.Justified program policy (.pointsTo place object)
  tasks : ∀ task ∈ stack, state.JustifiedTask program policy task
  covered : ∀ j, state.Holds j → state.Covered program policy stack j

theorem Points.extend (hextend : old.Extends new)
    (hkeeps : ∀ place object, old.Pending place object → new.Pending place object)
    {place : Pointer} {object : CsObjId} (h : old.Points place object) :
    new.Points place object :=
  h.imp hextend.holds (hkeeps place object)

section Mono

variable (hextend : old.Extends new)
  (hpoints : ∀ place object, old.Points place object → new.Points place object)
  {stack' : List Task} (hdue : ∀ j, old.Due stack j → new.Due stack' j)
include hextend hpoints hdue

theorem Executed.mono {context : ContextId} {site : Site} {stmt : Stmt}
    (h : old.Executed program policy stack context site stmt) :
    new.Executed program policy stack' context site stmt := by
  cases stmt with
  | alloc lhs type =>
    obtain ⟨object, hobject, hoffered⟩ := h
    exact ⟨object, hobject.extend hextend, hpoints _ _ hoffered⟩
  | copy lhs rhs => exact hdue _ h
  | loadField lhs base field =>
    cases base with
    | none => exact hdue _ h
    | some base => trivial
  | storeField base field rhs =>
    cases base with
    | none => exact hdue _ h
    | some base => trivial
  | invoke call =>
    intro hstatic callee hcallee
    obtain ⟨selected, hselected, hlink⟩ := h hstatic callee hcallee
    exact ⟨selected, hselected.extend hextend, hdue _ hlink⟩
  | _ => trivial

theorem Accessed.mono {context : ContextId} {object : CsObjId} {site : Site} {stmt : Stmt}
    (h : old.Accessed program policy stack context object site stmt) :
    new.Accessed program policy stack' context object site stmt := by
  cases stmt with
  | loadField lhs base field => exact hdue _ h
  | storeField base field rhs => exact hdue _ h
  | loadArray lhs base index => exact hdue _ h
  | storeArray base index rhs => exact hdue _ h
  | invoke call =>
    obtain ⟨receiver, type, hreceiver, hcalls⟩ := h
    refine ⟨receiver, type, hextend.receiver hreceiver, fun callee hcallee => ?_⟩
    obtain ⟨selected, hselected, hthis, hlink⟩ := hcalls callee hcallee
    exact ⟨selected, hselected.extend hextend,
      fun method this hmethod hname => hpoints _ _ (hthis method this hmethod hname),
      hdue _ hlink⟩
  | _ => trivial

/-- The effect of a task stays when the tables grow. -/
theorem Effect.mono {task : Task} (h : old.Effect program policy stack task) :
    new.Effect program policy stack' task := by
  cases task with
  | reach method => exact @Extends.holds old new hextend (.reachable _ _) h
  | connect source target => exact @Extends.holds old new hextend (.flows _ _) h
  | link kind site callee => exact @Extends.holds old new hextend (.calls _ _ _ _ _) h
  | execute context site stmt => exact Executed.mono hextend hpoints hdue h
  | access context object site | dispatch context object receiver type site =>
    exact fun stmt hstmt => (h stmt hstmt).mono hextend hpoints hdue

omit hextend in
/-- What a judgement asks for stays due, as long as the source of an edge points to no
more. -/
theorem Covered.mono {j : Judgement ContextId CsObjId}
    (htasks : ∀ task, (task ∈ stack ∨ old.Effect program policy stack task) →
      task ∈ stack' ∨ new.Effect program policy stack' task)
    (hsame : ∀ source target, j = .flows source target → ∀ object,
      new.Holds (.pointsTo source object) → old.Holds (.pointsTo source object))
    (h : old.Covered program policy stack j) : new.Covered program policy stack' j := by
  cases j with
  | reachable context method =>
    exact fun site stmt hmethod hstmt => htasks _ (h site stmt hmethod hstmt)
  | pointsTo place object =>
    intro context base site stmt route hplace hstmt hroute
    obtain ⟨task, hserves, htask⟩ := h context base site stmt route hplace hstmt hroute
    exact ⟨task, hserves, htasks task htask⟩
  | flows source target =>
    exact fun object hobject => hpoints _ _ (h object (hsame _ _ rfl object hobject))
  | calls kind context site selected callee =>
    exact ⟨hdue _ h.1,
      fun call method arg param hstmt hmethod hbound =>
        hdue _ (h.2.1 call method arg param hstmt hmethod hbound),
      fun call returned value result hstmt hreturned hvalue hresult =>
        hdue _ (h.2.2 call returned value result hstmt hreturned hvalue hresult)⟩

end Mono

end State

open State (Change Awaited)

section Traced

variable {program : Program} {task : Task} {tasks : List Task} {method : CsMethod}
  {context selected : ContextId} {site : Site} {callee : MethodId}

/-- The place is a variable that the method mentions. -/
def Place.OwnedBy (program : Program) (method : CsMethod) : Place ContextId CsObjId → Prop
  | .var context v => context = method.context ∧ program.Mentions method.method v
  | _ => False

/-- The method for which a task is done. -/
def Task.Concerns (program : Program) (method : CsMethod) : Task → Prop
  | .reach reached => method = reached
  | .execute context site _ => method = ⟨context, site.method⟩
  | .access context _ site => method = ⟨context, site.method⟩
  | .dispatch context _ _ _ site => method = ⟨context, site.method⟩
  | .connect _ target => target.OwnedBy program method
  | .link _ site _ => method = ⟨site.context, site.site.method⟩

/-- Going through a variable is done for the method of the statement. -/
theorem Task.Serves.concerns {object : CsObjId} (h : task.Serves context object site)
    (hconcerns : task.Concerns program method) : method = ⟨context, site.method⟩ := by
  cases h <;> exact hconcerns

/-- A task on the stack makes the method reachable, or calls it. -/
def Expected (stack : List Task) (method : CsMethod) : Prop :=
  .reach method ∈ stack ∨ ∃ kind site, .link kind site method ∈ stack

/-- The tasks that take the place of a task, and the objects that it offers, concern the
methods that it concerns and those that it calls.  Only a call makes a method reachable. -/
structure Traced (program : Program) (task : Task) (tasks : List Task)
    (offered : Pointer → CsObjId → Prop) : Prop where
  reached : ∀ method, .reach method ∈ tasks → ∃ kind site, task = .link kind site method
  concerned : program.Local → ∀ other ∈ tasks, ∀ method, other.Concerns program method →
    task.Concerns program method ∨ Expected tasks method
  offers : program.Local → ∀ place object, offered place object →
    ∀ method, place.OwnedBy program method →
      task.Concerns program method ∨ Expected tasks method

/-- In a local program a variable is owned by one method under each context. -/
theorem Place.OwnedBy.eq (hlocal : program.Local) {id : MethodId} {v : VarId}
    (h : Place.OwnedBy program method (.var context v)) (hmentions : program.Mentions id v) :
    method = ⟨context, id⟩ := by
  obtain ⟨selected, other⟩ := method
  obtain ⟨rfl, hother⟩ := h
  obtain rfl : other = id := hlocal.eq_of_mentions hother hmentions
  rfl

/-- The variable that a statement writes is owned by the method of the statement. -/
theorem Place.OwnedBy.eq_of_writes (hlocal : program.Local) {v : VarId} {stmt : Stmt}
    (h : Place.OwnedBy program method (.var context v))
    (hstmt : program.getStmt site = .ok stmt) (hwrites : stmt.writes? = some v) :
    method = ⟨context, site.method⟩ :=
  h.eq hlocal (Program.mentions_of_getStmt hstmt (by simp [hwrites]))

theorem Traced.nil : Traced program task [] fun _ _ => False :=
  ⟨by simp, by simp, fun _ _ _ h => h.elim⟩

theorem Traced.connect {source target : Pointer}
    (htarget : program.Local → ∀ method, target.OwnedBy program method →
      task.Concerns program method) :
    Traced program task [.connect source target] fun _ _ => False := by
  refine ⟨by simp, ?_, fun _ _ _ h => h.elim⟩
  intro hlocal other hother method hconcerns
  rw [List.mem_singleton.mp hother] at hconcerns
  exact .inl (htarget hlocal method hconcerns)

theorem Traced.link {kind : CallKind} {offered : Pointer → CsObjId → Prop}
    (hsite : task.Concerns program ⟨context, site.method⟩)
    (hoffered : program.Local → ∀ place object, offered place object →
      ∀ method, place.OwnedBy program method → method = ⟨selected, callee⟩) :
    Traced program task [.link kind ⟨context, site⟩ ⟨selected, callee⟩] offered := by
  refine ⟨by simp, ?_, ?_⟩
  · intro _ other hother method hconcerns
    rw [List.mem_singleton.mp hother] at hconcerns
    obtain rfl : method = ⟨context, site.method⟩ := hconcerns
    exact .inl hsite
  · intro hlocal place object hplace method howned
    obtain rfl := hoffered hlocal place object hplace method howned
    exact .inr (.inr ⟨kind, _, List.mem_cons_self⟩)

end Traced

/-- What performing a task does: it changes `old` to `new` and leaves `tasks`.  Objects
are only put on their way, what is recorded is what the task asks for, and it calls for no
more than `tasks`. -/
structure Performed (program : Program) (policy : Policy) (old : State) (task : Task)
    (new : State) (tasks : List Task) (added : Judgement ContextId CsObjId → Prop)
    (offered : Pointer → CsObjId → Prop) : Prop where
  change : Change old new added offered 1
  orderly : new.Orderly program policy
  justified : ∀ j, added j → new.Justified program policy j
  justifiedOffers : ∀ place object, offered place object →
    new.Justified program policy (.pointsTo place object)
  justifiedTasks : ∀ other ∈ tasks, new.JustifiedTask program policy other
  effect : new.Effect program policy tasks task
  covered : ∀ j, added j → new.Covered program policy tasks j
  points : ∀ place object, ¬ added (.pointsTo place object)
  recorded : ∀ j, added j → Awaited [task] j
  traced : Traced program task tasks offered

namespace State

variable {program : Program} {policy : Policy} {old new : State} {task : Task}
  {tasks rest : List Task} {added : Judgement ContextId CsObjId → Prop}
  {offered : Pointer → CsObjId → Prop}

theorem Awaited.append_left {j : Judgement ContextId CsObjId} (h : Awaited tasks j)
    (rest : List Task) : Awaited (tasks ++ rest) j := by
  cases j with
  | pointsTo place object => exact h
  | _ => exact List.mem_append_left rest h

/-- What is due before a task is performed is due after it. -/
theorem Due.perform (hextend : old.Extends new)
    (heffect : new.Effect program policy tasks task) {j : Judgement ContextId CsObjId}
    (h : old.Due (task :: rest) j) : new.Due (tasks ++ rest) j := by
  rcases h with hold | hwait
  · exact .inl (hextend.holds hold)
  · cases j with
    | pointsTo place object => exact hwait.elim
    | reachable context method =>
      rcases List.mem_cons.mp hwait with rfl | hmem
      · exact .inl heffect
      · exact .inr (List.mem_append_right tasks hmem)
    | flows source target =>
      rcases List.mem_cons.mp hwait with rfl | hmem
      · exact .inl heffect
      · exact .inr (List.mem_append_right tasks hmem)
    | calls kind context site selected callee =>
      rcases List.mem_cons.mp hwait with rfl | hmem
      · exact .inl heffect
      · exact .inr (List.mem_append_right tasks hmem)

/-- Performing a task keeps the invariant. -/
theorem Invariant.perform (h : old.Invariant program policy (task :: rest))
    (hperformed : Performed program policy old task new tasks added offered) :
    new.Invariant program policy (tasks ++ rest) := by
  have hextend := hperformed.change.extend
  have hpoints : ∀ place object, old.Points place object → new.Points place object :=
    fun _ _ hp => hp.extend hextend hperformed.change.keeps
  have hdue : ∀ j, old.Due (task :: rest) j → new.Due (tasks ++ rest) j :=
    fun _ => Due.perform hextend hperformed.effect
  have hgrow : ∀ j, new.Due tasks j → new.Due (tasks ++ rest) j :=
    fun _ hj => hj.imp_right fun hwait => hwait.append_left rest
  have heffect : new.Effect program policy (tasks ++ rest) task :=
    hperformed.effect.mono (.refl new) (fun _ _ hp => hp) hgrow
  refine ⟨hperformed.orderly, ?_, ?_, ?_, ?_⟩
  · intro j hj
    rcases hperformed.change.holds j hj with hold | hadded
    · exact (h.justified j hold).extend hextend
    · exact hperformed.justified j hadded
  · intro place object hpending
    rcases hperformed.change.pending place object hpending with hold | hoffered
    · exact (h.pending place object hold).extend hextend
    · exact hperformed.justifiedOffers place object hoffered
  · intro other hother
    rcases List.mem_append.mp hother with hnew | hold
    · exact hperformed.justifiedTasks other hnew
    · exact (h.tasks other (List.mem_cons_of_mem task hold)).extend hextend
  · intro j hj
    rcases hperformed.change.holds j hj with hold | hadded
    · refine (h.covered j hold).mono hpoints hdue ?_ ?_
      · rintro other (hmem | hdone)
        · rcases List.mem_cons.mp hmem with rfl | hmem
          · exact .inr heffect
          · exact .inl (List.mem_append_right tasks hmem)
        · exact .inr (hdone.mono hextend hpoints hdue)
      · intro source target _ object hpoints
        rcases hperformed.change.holds _ hpoints with hold | hadded
        · exact hold
        · exact absurd hadded (hperformed.points source object)
    · refine (hperformed.covered j hadded).mono (fun _ _ hp => hp) hgrow ?_ ?_
      · rintro other (hmem | hdone)
        · exact .inl (List.mem_append_left rest hmem)
        · exact .inr (hdone.mono (.refl new) (fun _ _ hp => hp) hgrow)
      · exact fun _ _ _ _ hpoints => hpoints

end State

end ObjectFlow.PointsTo
