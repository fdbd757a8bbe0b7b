import Mathlib.Tactic.Ring
import ObjectFlow.Proofs.PointsTo.Coverage
import ObjectFlow.Proofs.Program.Size

/-!
# One task

Each task of the solver is performed without a fault, and does what `Performed` says.
Its cost is paid from a budget: a task has a weight, the tasks that take its place weigh
less, and only a method or a call that is found for the first time puts more on the stack.
-/

namespace ObjectFlow.PointsTo

/-- Tasks that only record something weigh less than those that lead to them. -/
def Task.weight : Task → Nat
  | .execute _ _ _ => 2
  | .access _ _ _ => 2
  | .dispatch _ _ _ _ _ => 2
  | _ => 1

/-- The weight of a stack. -/
def weigh (tasks : List Task) : Nat := (tasks.map Task.weight).sum

/-- The number of methods and calls that were found. -/
def State.found (state : State) : Nat := state.calls.reachable.size + state.calls.edges.size

/-- More than the weight of the tasks that one method or one call puts on the stack. -/
def span (program : Program) : Nat := 4 * program.listing.size + 2

theorem weigh_cons (task : Task) (tasks : List Task) :
    weigh (task :: tasks) = task.weight + weigh tasks := by
  simp [weigh]

theorem weigh_append (first second : List Task) :
    weigh (first ++ second) = weigh first + weigh second := by
  simp [weigh]

theorem weigh_le (tasks : List Task) : weigh tasks ≤ 2 * tasks.length := by
  induction tasks with
  | nil => simp [weigh]
  | cons task tasks ih =>
    have hweight : task.weight ≤ 2 := by
      unfold Task.weight
      split <;> omega
    rw [weigh_cons, List.length_cons]
    omega

theorem State.Extends.found_le {old new : State} (h : old.Extends new) : old.found ≤ new.found :=
  Nat.add_le_add h.reachable.size_le h.calls.size_le

/-- A task is performed, and pays for the tasks that take its place. -/
def Progresses (program : Program) (policy : Policy) (old : State) (task : Task) : Prop :=
  ∃ new tasks added offered, perform program policy old task = .ok (new, tasks) ∧
    Performed program policy old task new tasks added offered ∧
    weigh tasks + span program * old.found < task.weight + span program * new.found

section

variable {program : Program} {policy : Policy} {state new : State} {task : Task}
  {tasks rest : List Task}

/-- Tasks that weigh less than the one that they replace need no budget. -/
theorem cost_of_weigh_lt (hextend : state.Extends new) (hweigh : weigh tasks < task.weight) :
    weigh tasks + span program * state.found < task.weight + span program * new.found := by
  have hfound := Nat.mul_le_mul_left (span program) hextend.found_le
  omega

/-- What is found for the first time pays for the tasks that it puts on the stack. -/
theorem cost_of_found (hfound : new.found = state.found + 1)
    (hweigh : weigh tasks ≤ span program) :
    weigh tasks + span program * state.found < 1 + span program * new.found := by
  rw [hfound, Nat.mul_add]
  omega

theorem found_addReachable {method : CsMethod} (h : ¬ state.calls.contains method = true) :
    State.found { state with calls := state.calls.addReachable method } = state.found + 1 := by
  have hsize : (state.calls.reachable.insert method).size = state.calls.reachable.size + 1 := by
    rw [Interner.size_insert, if_neg (by simpa [CallGraph.contains] using h)]
  simp only [State.found, CallGraph.addReachable, hsize]
  omega

theorem found_addEdge {kind : CallKind} {site : CsSite} {callee : CsMethod}
    (h : ¬ state.calls.hasEdge site callee = true) :
    State.found { state with calls := state.calls.addEdge ⟨kind, site, callee⟩ } =
      state.found + 1 := by
  have hsize : (state.calls.edges.insert ⟨kind, site, callee⟩).size =
      state.calls.edges.size + 1 := by
    rw [Interner.size_insert, if_neg (by simpa [CallGraph.contains_edges] using h)]
  simp only [State.found, CallGraph.reachable_addEdge, CallGraph.edges_addEdge, hsize]
  omega

/-- An edge between the same ends is of the same kind, the kind of its call. -/
theorem holds_of_hasEdge (h : state.Invariant program policy tasks) {kind : CallKind}
    {site : CsSite} {callee : CsMethod}
    (hjust : state.Justified program policy
      (.calls kind site.context site.site callee.context callee.method))
    (hknown : state.calls.hasEdge site callee = true) :
    state.Holds (.calls kind site.context site.site callee.context callee.method) := by
  obtain ⟨kind', hedge⟩ := CallGraph.hasEdge_iff.mp hknown
  have hholds : state.Holds (.calls kind' site.context site.site callee.context callee.method) :=
    State.holds_calls_iff.mpr hedge
  obtain ⟨_, _, -, -, hderives⟩ := hjust.calls
  obtain ⟨_, _, -, -, hderives'⟩ := (h.justified _ hholds).calls
  obtain ⟨-, call, hstmt, hkind⟩ := hderives.inRange
  obtain ⟨-, call', hstmt', hkind'⟩ := hderives'.inRange
  rw [hstmt] at hstmt'
  cases hstmt'
  rw [hkind] at hkind'
  subst hkind'
  exact hholds

/-- A task that records nothing. -/
theorem progresses_of_quiet (hquiet : State.Quiet state new)
    (horderly : new.Orderly program policy)
    (hperform : perform program policy state task = .ok (new, tasks))
    (htasks : ∀ other ∈ tasks, new.JustifiedTask program policy other)
    (heffect : new.Effect program policy tasks task) (hweigh : weigh tasks < task.weight)
    (htraced : Traced program task tasks fun _ _ => False) :
    Progresses program policy state task :=
  ⟨new, tasks, _, _, hperform, ⟨hquiet.congr (fun _ => Iff.rfl) (fun _ _ => Iff.rfl)
    (Nat.zero_le 1), horderly, fun _ h => h.elim, fun _ _ h => h.elim, htasks, heffect,
    fun _ h => h.elim, fun _ _ h => h, fun _ h => h.elim, htraced⟩,
    cost_of_weigh_lt hquiet.extend hweigh⟩

theorem progresses_reach {method : CsMethod}
    (h : state.Invariant program policy (.reach method :: rest)) :
    Progresses program policy state (.reach method) := by
  have hjust := h.tasks _ List.mem_cons_self
  by_cases hknown : state.calls.contains method = true
  · have hperform : perform program policy state (.reach method) = .ok (state, []) := by
      simp [perform, CallGraph.noteReachable, hknown]
    exact progresses_of_quiet (State.quiet_refl h.orderly.linked) h.orderly hperform (by simp)
      hknown (by simp [weigh, Task.weight]) .nil
  · obtain ⟨trail, -, hderives⟩ := State.Justified.reachable hjust
    obtain ⟨body, hbody⟩ := Program.exists_getMethod hderives.inRange
    have hchange := State.change_addReachable h.orderly.linked method
    refine ⟨{ state with calls := state.calls.addReachable method },
      body.sites.map fun item => .execute method.context item.1 item.2, _, _,
      by simp [perform, CallGraph.noteReachable, hknown, hbody],
      ⟨hchange.congr (fun _ => Iff.rfl) (fun _ _ => Iff.rfl)
        (Nat.zero_le 1), { h.orderly with linked := hchange.linked }, ?_, fun _ _ h => h.elim, ?_,
        hchange.added _ rfl, ?_, ?_, ?_, ?_⟩, cost_of_found (found_addReachable hknown) ?_⟩
    · rintro j rfl
      exact State.Justified.extend hchange.extend hjust
    · intro other hother
      obtain ⟨⟨site, stmt⟩, hitem, rfl⟩ := List.mem_map.mp hother
      obtain ⟨hmethod, hstmt⟩ := (Program.mem_sites_iff hbody).mp hitem
      refine ⟨?_, hstmt⟩
      rw [hmethod]
      exact State.Justified.extend hchange.extend hjust
    · rintro j rfl site stmt hmethod hstmt
      exact .inl (List.mem_map.mpr ⟨(site, stmt),
        (Program.mem_sites_iff hbody).mpr ⟨hmethod, hstmt⟩, rfl⟩)
    · intro place object heq
      cases heq
    · rintro j rfl
      exact List.mem_cons_self
    · refine ⟨by simp, ?_, fun _ _ _ h => h.elim⟩
      intro _ other hother target hconcerns
      obtain ⟨⟨site, stmt⟩, hitem, rfl⟩ := List.mem_map.mp hother
      obtain rfl : target = ⟨method.context, site.method⟩ := hconcerns
      rw [((Program.mem_sites_iff hbody).mp hitem).1]
      exact .inl rfl
    · have hlength := Program.length_sites_le hbody
      refine (weigh_le _).trans ?_
      rw [List.length_map, span]
      omega

theorem progresses_connect {source target : Pointer}
    (h : state.Invariant program policy (.connect source target :: rest)) :
    Progresses program policy state (.connect source target) := by
  have hjust : state.Justified program policy (.flows source target) :=
    h.tasks _ List.mem_cons_self
  obtain ⟨new, hconnect, hchange⟩ := State.change_connect h.orderly.linked source target
  have hjust' := hjust.extend hchange.extend
  refine ⟨new, [], _, _, by simp [perform, hconnect], ⟨hchange,
    h.orderly.connect hjust.readable.1 hjust.readable.2 hconnect, ?_, ?_, by simp,
    hchange.added _ rfl, ?_, ?_, ?_, ?_⟩,
    cost_of_weigh_lt hchange.extend (by simp [weigh, Task.weight])⟩
  · rintro j rfl
    exact hjust'
  · rintro place object ⟨rfl, -, hpoints⟩
    exact State.justified_flow hjust' ((h.justified _ hpoints).extend hchange.extend)
  · rintro j rfl object hpoints
    have hold : state.Holds (.pointsTo source object) :=
      (hchange.holds _ hpoints).elim id (fun heq => by cases heq)
    by_cases hknown : state.Holds (.flows source target)
    · exact (h.covered _ hknown object hold).extend hchange.extend hchange.keeps
    · exact .inr (hchange.offered target object ⟨rfl, hknown, hold⟩)
  · intro place object heq
    cases heq
  · rintro j rfl
    exact List.mem_cons_self
  · refine ⟨by simp, by simp, ?_⟩
    rintro _ place object ⟨rfl, -⟩ method howned
    exact .inl howned

theorem progresses_link {kind : CallKind} {site : CsSite} {callee : CsMethod}
    (h : state.Invariant program policy (.link kind site callee :: rest)) :
    Progresses program policy state (.link kind site callee) := by
  have hjust : state.Justified program policy
      (.calls kind site.context site.site callee.context callee.method) :=
    h.tasks _ List.mem_cons_self
  by_cases hknown : state.calls.hasEdge site callee = true
  · have hperform : perform program policy state (.link kind site callee) = .ok (state, []) := by
      simp [perform, CallGraph.noteEdge, hknown]
    exact progresses_of_quiet (State.quiet_refl h.orderly.linked) h.orderly hperform (by simp)
      (holds_of_hasEdge h hjust hknown) (by simp [weigh, Task.weight]) .nil
  · obtain ⟨trail, trail', -, -, hderives⟩ := hjust.calls
    obtain ⟨hlt, call, hstmt, -⟩ := hderives.inRange
    obtain ⟨method, hmethod⟩ := Program.exists_getMethod hlt
    obtain ⟨returned, hreturned, -⟩ := Program.exists_returnVars hlt
    obtain ⟨tasks, hbindings, hlength, hmem⟩ := State.exists_bindings hstmt hmethod hreturned
    have hchange := State.change_addCall h.orderly.linked hknown kind
    have hjust' := hjust.extend hchange.extend
    refine ⟨{ state with calls := state.calls.addEdge ⟨kind, site, callee⟩ },
      .reach callee :: tasks, _, _, by simp [perform, CallGraph.noteEdge, hknown, hbindings],
      ⟨hchange.congr (fun _ => Iff.rfl) (fun _ _ => Iff.rfl) (Nat.zero_le 1),
        { h.orderly with linked := hchange.linked }, ?_, fun _ _ h => h.elim, ?_,
        hchange.added _ rfl, ?_, ?_, ?_, ?_⟩, cost_of_found (found_addEdge hknown) ?_⟩
    · rintro j rfl
      exact hjust'
    · intro other hother
      rcases List.mem_cons.mp hother with rfl | hother
      · exact State.justified_callee hjust'
      · rcases (hmem other).mp hother with
          ⟨arg, param, hbound, rfl⟩ | ⟨value, result, hvalue, hresult, rfl⟩
        · exact State.justified_argument hjust' hstmt hmethod hbound
        · exact State.justified_result hjust' hstmt hreturned hvalue hresult
    · rintro j rfl
      refine ⟨.inr List.mem_cons_self, ?_, ?_⟩
      · intro call' method' arg param hstmt' hmethod' hbound
        rw [hstmt] at hstmt'
        cases hstmt'
        rw [hmethod] at hmethod'
        cases hmethod'
        exact .inr (List.mem_cons_of_mem _ ((hmem _).mpr (.inl ⟨arg, param, hbound, rfl⟩)))
      · intro call' returned' value result hstmt' hreturned' hvalue hresult
        rw [hstmt] at hstmt'
        cases hstmt'
        rw [hreturned] at hreturned'
        cases hreturned'
        exact .inr (List.mem_cons_of_mem _
          ((hmem _).mpr (.inr ⟨value, result, hvalue, hresult, rfl⟩)))
    · intro place object heq
      cases heq
    · rintro j rfl
      exact List.mem_cons_self
    · refine ⟨?_, ?_, fun _ _ _ h => h.elim⟩
      · intro other hreach
        rcases List.mem_cons.mp hreach with heq | hother
        · cases heq
          exact ⟨kind, site, rfl⟩
        · rcases (hmem _).mp hother with ⟨_, _, _, heq⟩ | ⟨_, _, _, _, heq⟩ <;> cases heq
      · intro hlocal other hother target hconcerns
        rcases List.mem_cons.mp hother with rfl | hother
        · obtain rfl : target = callee := hconcerns
          exact .inr (.inl List.mem_cons_self)
        · rcases (hmem other).mp hother with
            ⟨arg, param, hbound, rfl⟩ | ⟨value, result, -, hresult, rfl⟩
          · have hmentions := Program.mentions_of_local hmethod
              (List.mem_append_right _ (List.of_mem_zip hbound).2)
            obtain rfl : target = callee := Place.OwnedBy.eq hlocal hconcerns hmentions
            exact .inr (.inl List.mem_cons_self)
          · exact .inl (Place.OwnedBy.eq_of_writes hlocal hconcerns hstmt hresult)
    · have hargs := Program.length_args_le hstmt
      have hvalues := Program.length_returnVars_le hreturned hlt
      have hweigh := weigh_le tasks
      have hreach : (Task.reach callee).weight = 1 := rfl
      rw [weigh_cons, hreach, span]
      omega

/-- The parts of a context that can be read. -/
theorem State.Orderly.parts_of_reads (h : state.Orderly program policy) {context : ContextId}
    {trail : Trail} (hreads : state.ReadsContext context trail) :
    ∃ parts, state.contexts.table.items[context.index]? = some parts ∧
      state.ReadableParts program policy parts := by
  obtain ⟨parts, hparts, -⟩ := hreads
  exact ⟨parts, hparts, h.contexts parts (Array.mem_iff_getElem?.mpr ⟨_, hparts⟩)⟩

theorem progresses_staticCall {context : ContextId} {site : Site} {call : Call}
    (h : state.Invariant program policy (.execute context site (.invoke call) :: rest))
    (hstatic : call.isStatic = true) :
    Progresses program policy state (.execute context site (.invoke call)) := by
  obtain ⟨hjust, hstmt⟩ := h.tasks _ List.mem_cons_self
  have hresolves : program.Resolves (program.callee none call.kind call.target) :=
    program.resolves_callee call.kind (Program.call_of_getStmt hstmt).1 (by simp)
  obtain ⟨found, hfound, -⟩ := hresolves
  cases found with
  | none =>
    have hperform : perform program policy state (.execute context site (.invoke call)) =
        .ok (state, []) := by
      simp [perform, hstatic, hfound]
    refine progresses_of_quiet (State.quiet_refl h.orderly.linked) h.orderly hperform (by simp)
      ?_ (by simp [weigh, Task.weight]) .nil
    intro _ callee hcallee
    rw [hfound] at hcallee
    cases hcallee
  | some callee =>
    obtain ⟨trail, hcontext, -⟩ := hjust.reachable
    obtain ⟨parts, hparts, hreadable⟩ := h.orderly.parts_of_reads hcontext
    obtain ⟨contexts, selected, hselect, hextend, hselected, hitems⟩ :=
      policy.selects_staticContext hparts site
    have hquiet := State.quiet_tables h.orderly.linked (Interner.Extends.refl state.heap.objects)
      hextend (Interner.Extends.refl state.csObjects)
    have hstaticContext :
        State.StaticContext policy { state with contexts } context site selected :=
      ⟨parts, hextend _ _ hparts, hselected⟩
    have hperform : perform program policy state (.execute context site (.invoke call)) =
        .ok ({ state with contexts }, [.link call.kind ⟨context, site⟩ ⟨selected, callee⟩]) := by
      simp [perform, hstatic, hfound, hselect]
    refine progresses_of_quiet hquiet
      (h.orderly.selectContext (hreadable.static hstmt) hextend hitems) hperform ?_ ?_
      (by simp [weigh, Task.weight]) (.link rfl fun _ _ _ h => h.elim)
    · intro other hother
      rw [List.mem_singleton.mp hother]
      exact State.justified_staticCall (hjust.extend hquiet.extend) hstmt hstatic hfound
        hstaticContext
    · intro _ callee' hcallee'
      rw [hfound] at hcallee'
      cases hcallee'
      exact ⟨selected, hstaticContext, .inr List.mem_cons_self⟩

theorem progresses_execute {context : ContextId} {site : Site} {stmt : Stmt}
    (h : state.Invariant program policy (.execute context site stmt :: rest)) :
    Progresses program policy state (.execute context site stmt) := by
  obtain ⟨hjust, hstmt⟩ := h.tasks _ List.mem_cons_self
  have hquiet := State.quiet_refl h.orderly.linked
  -- A statement that only connects two places, or needs an object.
  have hconnect : ∀ source target,
      perform program policy state (.execute context site stmt) =
        .ok (state, [.connect source target]) →
      state.Justified program policy (.flows source target) →
      state.Executed program policy [.connect source target] context site stmt →
      (program.Local → ∀ method, target.OwnedBy program method →
        method = ⟨context, site.method⟩) →
      Progresses program policy state (.execute context site stmt) := by
    intro source target hperform hflows heffect htarget
    refine progresses_of_quiet hquiet h.orderly hperform ?_ heffect (by simp [weigh, Task.weight])
      (.connect htarget)
    intro other hother
    rw [List.mem_singleton.mp hother]
    exact hflows
  have hnothing : perform program policy state (.execute context site stmt) = .ok (state, []) →
      state.Executed program policy [] context site stmt →
      Progresses program policy state (.execute context site stmt) := by
    intro hperform heffect
    exact progresses_of_quiet hquiet h.orderly hperform (by simp) heffect
      (by simp [weigh, Task.weight]) .nil
  have hwrites : ∀ v, stmt.writes? = some v → program.Local → ∀ method,
      Place.OwnedBy program method (.var context v) → method = ⟨context, site.method⟩ :=
    fun v hv hlocal method howned => howned.eq_of_writes hlocal hstmt hv
  cases stmt with
  | alloc lhs type =>
    obtain ⟨trail, hcontext, -⟩ := hjust.reachable
    obtain ⟨parts, hparts, -⟩ := h.orderly.parts_of_reads hcontext
    obtain ⟨new, object, hallocate, horderly, hallocated, hchange⟩ :=
      State.exists_allocate h.orderly (Interner.lt_size_of_getElem? hparts) hstmt
    refine ⟨new, [], _, _, by simp [perform, hallocate], ⟨hchange, horderly, fun _ h => h.elim,
      ?_, by simp, ?_, fun _ h => h.elim, fun _ _ h => h, fun _ h => h.elim, ?_⟩,
      cost_of_weigh_lt hchange.extend (by simp [weigh, Task.weight])⟩
    · rintro place object ⟨rfl, rfl⟩
      exact State.justified_alloc (hjust.extend hchange.extend) hstmt hallocated
    · exact ⟨object, hallocated, .inr (hchange.offered _ _ ⟨rfl, rfl⟩)⟩
    · refine ⟨by simp, by simp, ?_⟩
      rintro hlocal place object ⟨rfl, -⟩ method howned
      exact .inl (hwrites lhs rfl hlocal method howned)
  | copy lhs rhs =>
    exact hconnect _ _ rfl (State.justified_copy hjust hstmt) (.inr List.mem_cons_self)
      (hwrites lhs rfl)
  | loadField lhs base field =>
    cases base with
    | none =>
      exact hconnect _ _ rfl (State.justified_staticLoad hjust hstmt) (.inr List.mem_cons_self)
        (hwrites lhs rfl)
    | some base => exact hnothing rfl trivial
  | storeField base field rhs =>
    cases base with
    | none =>
      exact hconnect _ _ rfl (State.justified_staticStore hjust hstmt) (.inr List.mem_cons_self)
        fun _ _ howned => howned.elim
    | some base => exact hnothing rfl trivial
  | invoke call =>
    by_cases hstatic : call.isStatic = true
    · exact progresses_staticCall h hstatic
    · exact hnothing (by simp [perform, hstatic]) fun hcontra => absurd hcontra hstatic
  | _ => exact hnothing rfl trivial

/-- What a resolved call on an object does to the state: it selects a context, and offers
the object to the callee when that has a variable for it. -/
theorem exists_dispatchCall {context : ContextId} {site : Site} {call : Call}
    {receiver : Receiver} {type : Ty} {callee : MethodId} {trail heapTrail : Trail}
    (h : state.Orderly program policy) (object : CsObjId)
    (hstmt : program.getStmt site = .ok (.invoke call))
    (hcontext : state.ReadsContext context trail)
    (hheap : state.ReadsContext receiver.heapContext heapTrail)
    (hobject : state.ReadableElem program (.object receiver.object))
    (hclass : receiver.allocClass.index < program.listing.classes.size)
    (hcallee : program.callee (some type) call.kind call.target = .ok (some callee))
    {method : Method} (hmethod : program.getMethod callee = .ok method) :
    ∃ new selected, dispatchCall program policy state context object receiver type site call =
        .ok (new, [.link call.kind ⟨context, site⟩ ⟨selected, callee⟩]) ∧
      new.Orderly program policy ∧ new.InstanceContext policy context site receiver selected ∧
      State.Change state new (fun _ => False)
        (fun p o => (∃ this, method.this = some this ∧ p = .var selected this) ∧ o = object) 1 := by
  obtain ⟨parts, hparts, hreadable⟩ := h.parts_of_reads hcontext
  obtain ⟨heapParts, hheapParts, hheapReadable⟩ := h.parts_of_reads hheap
  obtain ⟨contexts, selected, hselect, hextend, hselected, hitems⟩ :=
    policy.selects_instanceContext hparts site hheapParts
  have hquiet := State.quiet_tables h.linked (Interner.Extends.refl state.heap.objects)
    hextend (Interner.Extends.refl state.csObjects)
  have horderly := h.selectContext (hreadable.instance hheapReadable hstmt hobject hclass)
    hextend hitems
  have hinstance : State.InstanceContext policy { state with contexts } context site receiver
      selected := ⟨parts, heapParts, hextend _ _ hparts, hextend _ _ hheapParts, hselected⟩
  cases hthis : method.this with
  | none =>
    refine ⟨{ state with contexts }, selected, ?_, horderly, hinstance, ?_⟩
    · simp [dispatchCall, hcallee, hselect, hmethod, hthis]
    · exact hquiet.congr (fun _ => Iff.rfl) (by simp) (Nat.zero_le 1)
  | some this =>
    have hoffer := State.change_offer horderly.linked (.var selected this) object
    obtain ⟨selectedTrail, hreads⟩ :=
      horderly.exists_readsContext (Interner.lt_size_of_getElem? hselected)
    have hplace : State.ReadablePlace program { state with contexts } (.var selected this) := by
      refine ⟨.var selectedTrail this, .var hreads this, ?_⟩
      exact program.inRange.method_local (Program.getMethod_eq_ok_iff.mp hmethod) _
        (by simp [hthis])
    refine ⟨State.offer { state with contexts } (.var selected this) object, selected,
      ?_, horderly.offer hplace object, hinstance.extend hoffer.extend, ?_⟩
    · simp [dispatchCall, hcallee, hselect, hmethod, hthis]
    · exact (hoffer.after_quiet hquiet).congr (fun _ => Iff.rfl) (by simp) (Nat.le_refl 1)

/-- A call on an object is linked when it is resolved. -/
theorem progresses_dispatch {context : ContextId} {object : CsObjId} {receiver : Receiver}
    {type : Ty} {site : Site}
    (h : state.Invariant program policy (.dispatch context object receiver type site :: rest)) :
    Progresses program policy state (.dispatch context object receiver type site) := by
  obtain ⟨base, call, hjust, hstmt, hbase, hreceiver⟩ := h.tasks _ List.mem_cons_self
  obtain ⟨trail, origin, hcontext, hobject, -⟩ := hjust.pointsTo
  obtain ⟨_, _, lhs, container, hlookup, halloc, hcontainer, hclass, hheap, hmark⟩ :=
    h.orderly.exists_receiver hobject
  rw [hreceiver] at hlookup
  cases hlookup
  have hresolves : program.Resolves (program.callee (some type) call.kind call.target) := by
    refine program.resolves_callee call.kind (Program.call_of_getStmt hstmt).1 ?_
    intro found hfound
    cases hfound
    exact Program.hasType_of_alloc halloc
  obtain ⟨found, hfound, hfoundLt⟩ := hresolves
  cases found with
  | none =>
    have hperform : perform program policy state (.dispatch context object receiver type site) =
        .ok (state, []) := by
      simp [perform, hstmt, Stmt.call?, dispatchCall, hfound]
    refine progresses_of_quiet (State.quiet_refl h.orderly.linked) h.orderly hperform (by simp)
      ?_ (by simp [weigh, Task.weight]) .nil
    intro stmt hstmt'
    rw [hstmt] at hstmt'
    cases hstmt'
    refine ⟨receiver, type, hreceiver, fun callee hcallee => ?_⟩
    rw [hfound] at hcallee
    cases hcallee
  | some callee =>
    obtain ⟨method, hmethod⟩ := Program.exists_getMethod (hfoundLt callee rfl)
    have hclassLt : receiver.allocClass.index < program.listing.classes.size := by
      rw [hclass]
      exact program.inRange.method_class (Program.getMethod_eq_ok_iff.mp hcontainer)
    obtain ⟨new, selected, hdispatch, horderly, hinstance, hchange⟩ := exists_dispatchCall h.orderly
      object hstmt hcontext hheap ⟨_, hmark, _, halloc⟩ hclassLt hfound hmethod
    obtain ⟨hcalls, hthis⟩ := State.justified_receiverCall (hjust.extend hchange.extend) horderly
      hstmt hbase (hchange.extend.receiver hreceiver) hfound hinstance
    have hperform : perform program policy state (.dispatch context object receiver type site) =
        .ok (new, [.link call.kind ⟨context, site⟩ ⟨selected, callee⟩]) := by
      simp [perform, hstmt, Stmt.call?, hdispatch]
    refine ⟨new, _, _, _, hperform, ⟨hchange, horderly,
      fun _ h => h.elim, ?_, ?_, ?_, fun _ h => h.elim, fun _ _ h => h, fun _ h => h.elim,
      .link rfl ?_⟩,
      cost_of_weigh_lt hchange.extend (by simp [weigh, Task.weight])⟩
    · rintro place object' ⟨⟨this, hname, rfl⟩, rfl⟩
      exact hthis method this hmethod hname
    · intro other hother
      rw [List.mem_singleton.mp hother]
      exact hcalls
    · intro stmt hstmt'
      rw [hstmt] at hstmt'
      cases hstmt'
      refine ⟨receiver, type, hchange.extend.receiver hreceiver, fun callee' hcallee' => ?_⟩
      rw [hfound] at hcallee'
      cases hcallee'
      refine ⟨selected, hinstance, fun method' this hmethod' hname => ?_, .inr List.mem_cons_self⟩
      rw [hmethod] at hmethod'
      cases hmethod'
      exact .inr (hchange.offered _ _ ⟨⟨this, hname, rfl⟩, rfl⟩)
    · rintro hlocal place object' ⟨⟨this, hname, rfl⟩, -⟩ target howned
      exact howned.eq hlocal (Program.mentions_of_local hmethod (by simp [hname]))

theorem progresses_access {context : ContextId} {object : CsObjId} {site : Site}
    (h : state.Invariant program policy (.access context object site :: rest)) :
    Progresses program policy state (.access context object site) := by
  obtain ⟨base, route, stmt, hjust, hstmt, hroute, hheap⟩ := h.tasks _ List.mem_cons_self
  have hconnect : ∀ source target,
      perform program policy state (.access context object site) =
        .ok (state, [.connect source target]) →
      state.Justified program policy (.flows source target) →
      state.Accessed program policy [.connect source target] context object site stmt →
      (program.Local → ∀ method, target.OwnedBy program method →
        method = ⟨context, site.method⟩) →
      Progresses program policy state (.access context object site) := by
    intro source target hperform hflows heffect htarget
    refine progresses_of_quiet (State.quiet_refl h.orderly.linked) h.orderly hperform ?_ ?_
      (by simp [weigh, Task.weight]) (.connect htarget)
    · intro other hother
      rw [List.mem_singleton.mp hother]
      exact hflows
    · intro stmt' hstmt'
      rw [hstmt] at hstmt'
      cases hstmt'
      exact heffect
  cases stmt with
  | loadField lhs owner field =>
    cases owner with
    | none => cases hroute
    | some owner =>
      cases hroute
      exact hconnect _ _ (by simp [perform, hstmt]) (State.justified_fieldLoad hjust hstmt)
        (.inr List.mem_cons_self) fun hlocal _ howned => howned.eq_of_writes hlocal hstmt rfl
  | storeField owner field rhs =>
    cases owner with
    | none => cases hroute
    | some owner =>
      cases hroute
      exact hconnect _ _ (by simp [perform, hstmt]) (State.justified_fieldStore hjust hstmt)
        (.inr List.mem_cons_self) fun _ _ howned => howned.elim
  | loadArray lhs owner index =>
    cases hroute
    exact hconnect _ _ (by simp [perform, hstmt]) (State.justified_arrayLoad hjust hstmt)
      (.inr List.mem_cons_self) fun hlocal _ howned => howned.eq_of_writes hlocal hstmt rfl
  | storeArray owner index rhs =>
    cases hroute
    exact hconnect _ _ (by simp [perform, hstmt]) (State.justified_arrayStore hjust hstmt)
      (.inr List.mem_cons_self) fun _ _ howned => howned.elim
  | invoke call =>
    obtain ⟨owner, -, heq⟩ := Option.map_eq_some_iff.mp hroute
    cases heq
    exact absurd rfl hheap
  | _ => cases hroute

/-- Every task on a stack is performed. -/
theorem progresses (h : state.Invariant program policy (task :: rest)) :
    Progresses program policy state task := by
  cases task with
  | reach method => exact progresses_reach h
  | execute context site stmt => exact progresses_execute h
  | connect source target => exact progresses_connect h
  | access context object site => exact progresses_access h
  | dispatch context object receiver type site => exact progresses_dispatch h
  | link kind site callee => exact progresses_link h

end

end ObjectFlow.PointsTo
