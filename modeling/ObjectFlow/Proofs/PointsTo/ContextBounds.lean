import ObjectFlow.Proofs.PointsTo.Termination

/-!
# Contexts within their bounds

`State.Orderly` bounds the depth of contexts and says that their parts can be read.  This
module says where contexts and objects come from.  A task adds to the table of contexts only
what the policy selects from sequences that are there, so that the parts of all contexts are
of the kind that the policy works with.  Only an allocation that a reachable method executes
adds an object, and the context of the object is the end of the context of the method.
-/

namespace ObjectFlow

/-- The parts that the contexts of a strategy consist of. -/
inductive Config.Strategy.Admits : Config.Strategy → PointsTo.ContextElem → Prop where
  | callSite (k : Nat) (site : Site) : Admits (.callSite k) (.callSite site)
  | object (k : Nat) (id : ObjId) : Admits (.object k) (.object id)
  | type (k : Nat) (id : ClassId) : Admits (.type k) (.type id)

namespace PointsTo

/-- Appending a part to a sequence and cutting it keeps what is true of all parts. -/
theorem Contexts.forall_mem_lastOf_append {ε : Type} {p : ε → Prop} {elems : List ε} {last : ε}
    (helems : ∀ elem ∈ elems, p elem) (hlast : p last) (limit : Nat) :
    ∀ elem ∈ lastOf limit (elems ++ [last]), p elem := by
  intro elem helem
  rcases List.mem_append.mp (mem_of_mem_lastOf helem) with hold | hnew
  · exact helems elem hold
  · rwa [List.mem_singleton.mp hnew]

/-- The sequences that a policy selects from those of a table. -/
inductive Contexts.Selectable (policy : Policy) (contexts : Contexts) :
    List ContextElem → Prop where
  | heap {caller : List ContextElem} (hcaller : caller ∈ contexts.table.items) :
    Selectable policy contexts (policy.heapParts caller)
  | static {caller : List ContextElem} (hcaller : caller ∈ contexts.table.items) (site : Site) :
    Selectable policy contexts (policy.staticParts caller (.callSite site))
  | receiver {caller heap : List ContextElem} (hcaller : caller ∈ contexts.table.items)
    (hheap : heap ∈ contexts.table.items) (site : Site) (receiver : Receiver) :
    Selectable policy contexts (policy.receiverParts caller heap site receiver)

/-- All parts in a table are of the kind of the strategy. -/
def Contexts.Uniform (strategy : Config.Strategy) (contexts : Contexts) : Prop :=
  ∀ parts ∈ contexts.table.items, ∀ elem ∈ parts, strategy.Admits elem

section Selectable

variable {policy : Policy} {contexts : Contexts} {parts : List ContextElem}

/-- A policy selects parts of its own kind only. -/
theorem Contexts.Selectable.admits (h : contexts.Selectable policy parts)
    (huniform : contexts.Uniform policy.strategy) :
    ∀ elem ∈ parts, policy.strategy.Admits elem := by
  unfold Contexts.Uniform at huniform
  cases h with
  | heap hcaller =>
    exact fun elem helem => huniform _ hcaller elem (Policy.mem_of_mem_heapParts helem)
  | static hcaller site =>
    unfold Policy.staticParts
    cases hstrategy : policy.strategy <;> rw [hstrategy] at huniform
    case insensitive => simp
    case callSite k => exact forall_mem_lastOf_append (huniform _ hcaller) (.callSite k site) k
    all_goals exact huniform _ hcaller
  | receiver hcaller hheap site receiver =>
    unfold Policy.receiverParts Policy.instanceParts
    cases hstrategy : policy.strategy <;> rw [hstrategy] at huniform
    case insensitive => simp
    case callSite k => exact forall_mem_lastOf_append (huniform _ hcaller) (.callSite k site) k
    case object k => exact forall_mem_lastOf_append (huniform _ hheap) (.object k _) k
    case type k => exact forall_mem_lastOf_append (huniform _ hheap) (.type k _) k

/-- The context of an object is the end of the context under which it is allocated. -/
theorem Policy.heapParts_suffix (policy : Policy) (parts : List ContextElem) :
    policy.heapParts parts <:+ parts := by
  unfold heapParts
  cases policy.strategy with
  | insensitive => exact List.nil_suffix
  | _ => exact List.drop_suffix _ _

theorem Policy.length_heapParts (h : parts.length ≤ policy.strategy.depth) :
    (policy.heapParts parts).length = min policy.heapDepth parts.length := by
  unfold heapParts
  cases hstrategy : policy.strategy <;> rw [hstrategy] at h
  case insensitive =>
    have hempty : parts.length = 0 := Nat.le_zero.mp h
    simp [hempty]
  all_goals
    simp only [Contexts.lastOf, List.length_drop]
    omega

end Selectable

namespace State

variable {program : Program} {policy : Policy} {state old new : State} {task : Task}
  {stack tasks rest : List Task} {context : ContextId} {site : Site}

/-- What a task does to the tables of contexts and objects: the policy selects what is added
to the one, and an allocation adds to the other.  Only a method that becomes reachable is
executed. -/
structure Numbers (policy : Policy) (old : State) (task : Task) (new : State)
    (tasks : List Task) : Prop where
  executed : ∀ context site stmt, .execute context site stmt ∈ tasks →
    task = .reach ⟨context, site.method⟩
  contexts : ∀ parts ∈ new.contexts.table.items,
    parts ∈ old.contexts.table.items ∨ old.contexts.Selectable policy parts
  objects : ∀ id : CsObjId, id.index < new.csObjects.size → id.index < old.csObjects.size ∨
    ∃ context site stmt, task = .execute context site stmt ∧ new.Allocated policy context site id

/-- A task that leaves both tables alone. -/
theorem Numbers.of_eq (hcontexts : new.contexts = old.contexts)
    (hobjects : new.csObjects = old.csObjects)
    (hexecuted : ∀ context site stmt, .execute context site stmt ∈ tasks →
      task = .reach ⟨context, site.method⟩) : Numbers policy old task new tasks where
  executed := hexecuted
  contexts parts hparts := .inl (by rwa [hcontexts] at hparts)
  objects id hid := .inl (by rwa [hobjects] at hid)

/-- A task that selects a context, and links a call to it. -/
theorem Numbers.of_selects {contexts : Contexts} {selected : ContextId}
    {outcome : Except Fault (Contexts × ContextId)} {parts : List ContextElem}
    (hselects : old.contexts.Selects outcome parts) (houtcome : outcome = .ok (contexts, selected))
    (hparts : old.contexts.Selectable policy parts) (hcontexts : new.contexts = contexts)
    (hobjects : new.csObjects = old.csObjects) {kind : CallKind} {csSite : CsSite}
    {callee : CsMethod} : Numbers policy old task new [.link kind csSite callee] where
  executed _ _ _ hmem := by simp at hmem
  contexts elems helems := by
    obtain ⟨contexts', id, houtcome', -, -, hitems⟩ := hselects
    rw [houtcome] at houtcome'
    cases houtcome'
    rw [hcontexts] at helems
    rcases hitems elems helems with hold | rfl
    · exact .inl hold
    · exact .inr hparts
  objects id hid := .inl (by rwa [hobjects] at hid)

theorem tables_connect {source target : Pointer} (h : state.connect source target = .ok new) :
    new.contexts = state.contexts ∧ new.csObjects = state.csObjects := by
  unfold connect at h
  simp only at h
  split at h
  · cases h
    exact ⟨rfl, rfl⟩
  · obtain ⟨objects, -, hpure⟩ := bind_eq_ok_iff.mp h
    cases hpure
    split <;> exact ⟨rfl, rfl⟩

/-- An allocation selects the context of its object, and numbers the object. -/
theorem numbers_alloc {parts : List ContextElem}
    (hparts : state.contexts.table.items[context.index]? = some parts) {lhs : VarId} {type : Ty}
    (h : state.allocate policy context site lhs type = .ok new) :
    Numbers policy state (.execute context site (.alloc lhs type)) new [] := by
  obtain ⟨contexts, heapContext, hselect, hextend, hheapParts, hitems⟩ :=
    policy.selects_heapContext hparts
  obtain ⟨obj, hobj, hcode, -⟩ := state.heap.objects.exists_getElem?_numberOf ⟨site, type⟩
  unfold allocate at h
  rw [hselect] at h
  cases h
  refine ⟨by simp, ?_, ?_⟩
  · intro elems helems
    rcases hitems elems helems with hold | rfl
    · exact .inl hold
    · exact .inr (.heap (Array.mem_iff_getElem?.mpr ⟨_, hparts⟩))
  · intro id hid
    obtain ⟨object, hobject⟩ := Interner.exists_getElem?_of_lt hid
    rcases Interner.getElem?_items_insert_cases hobject with hold | ⟨rfl, -, -⟩
    · exact .inl (Interner.lt_size_of_getElem? hold)
    · exact .inr ⟨context, site, _, rfl, parts, _, obj, hextend _ _ hparts, hobject, hheapParts,
        hobj, LawfulKey.code_injective hcode⟩

theorem numbers_execute {stmt : Stmt}
    (hinv : old.Invariant program policy (.execute context site stmt :: rest))
    (h : perform program policy old (.execute context site stmt) = .ok (new, tasks)) :
    Numbers policy old (.execute context site stmt) new tasks := by
  obtain ⟨trail, ⟨parts, hparts, -⟩, -⟩ := (hinv.tasks _ List.mem_cons_self).1.reachable
  have hmem : parts ∈ old.contexts.table.items := Array.mem_iff_getElem?.mpr ⟨_, hparts⟩
  cases stmt with
  | alloc lhs type =>
    obtain ⟨allocated, hallocate, hpure⟩ := bind_eq_ok_iff.mp h
    cases hpure
    exact numbers_alloc hparts hallocate
  | invoke call =>
    simp only [perform] at h
    split at h
    · obtain ⟨found, -, hfound⟩ := bind_eq_ok_iff.mp h
      cases found with
      | none =>
        cases hfound
        exact .of_eq rfl rfl (by simp)
      | some callee =>
        obtain ⟨⟨contexts, selected⟩, hselect, hpure⟩ := bind_eq_ok_iff.mp hfound
        cases hpure
        exact .of_selects (policy.selects_staticContext hparts site) hselect (.static hmem site)
          (by rfl) (by rfl)
    · cases h
      exact .of_eq rfl rfl (by simp)
  | loadField lhs base field =>
    cases base <;> cases h <;> exact .of_eq rfl rfl (by simp)
  | storeField base field rhs =>
    cases base <;> cases h <;> exact .of_eq rfl rfl (by simp)
  | _ =>
    cases h
    exact .of_eq rfl rfl (by simp)

/-- A call on an object selects a context from that of the caller and that of the object. -/
theorem numbers_dispatchCall (horderly : old.Orderly program policy) {parts : List ContextElem}
    (hparts : old.contexts.table.items[context.index]? = some parts) {object : CsObjId}
    {receiver : Receiver} {type : Ty} {call : Call}
    (hreceiver : old.receiver program object = .ok (receiver, type))
    (h : dispatchCall program policy old context object receiver type site call =
      .ok (new, tasks)) :
    Numbers policy old task new tasks := by
  obtain ⟨found, -, hfound⟩ := bind_eq_ok_iff.mp h
  cases found with
  | none =>
    cases hfound
    exact .of_eq rfl rfl (by simp)
  | some callee =>
    obtain ⟨⟨contexts, selected⟩, hselect, hmethod⟩ := bind_eq_ok_iff.mp hfound
    obtain ⟨method, -, hpure⟩ := bind_eq_ok_iff.mp hmethod
    obtain ⟨csObject, obj, container, hobject, -, -, rfl, -⟩ := receiver_eq_ok_iff.mp hreceiver
    obtain ⟨heap, hheap⟩ := Interner.exists_getElem?_of_lt
      (horderly.csObjects csObject (Array.mem_iff_getElem?.mpr ⟨_, hobject⟩)).1
    have hselectable := @Contexts.Selectable.receiver policy _ _ _
      (Array.mem_iff_getElem?.mpr ⟨_, hparts⟩) (Array.mem_iff_getElem?.mpr ⟨_, hheap⟩) site
      ⟨csObject.context, csObject.object, container.declaringClass⟩
    cases hpure
    cases method.this <;> exact .of_selects
      (policy.selects_instanceContext hparts site hheap) hselect hselectable (by rfl) (by rfl)

theorem numbers_access {object : CsObjId}
    (hinv : old.Invariant program policy (.access context object site :: rest))
    (h : perform program policy old (.access context object site) = .ok (new, tasks)) :
    Numbers policy old (.access context object site) new tasks := by
  obtain ⟨base, route, stmt, -, hstmt, -⟩ := hinv.tasks _ List.mem_cons_self
  simp only [perform, hstmt, ok_bind] at h
  cases stmt <;> cases h <;> exact .of_eq rfl rfl (by simp)

theorem numbers_dispatch {object : CsObjId} {receiver : Receiver} {type : Ty}
    (hinv : old.Invariant program policy (.dispatch context object receiver type site :: rest))
    (h : perform program policy old (.dispatch context object receiver type site) =
      .ok (new, tasks)) :
    Numbers policy old (.dispatch context object receiver type site) new tasks := by
  obtain ⟨base, call, hpoints, hstmt, -, hreceiver⟩ := hinv.tasks _ List.mem_cons_self
  obtain ⟨trail, origin, ⟨parts, hparts, -⟩, -⟩ := hpoints.pointsTo
  simp only [perform, hstmt, ok_bind] at h
  exact numbers_dispatchCall hinv.orderly hparts hreceiver h

theorem exists_connect_of_mem_bindings {csSite : CsSite} {callee : CsMethod}
    (h : bindings program csSite callee = .ok tasks) :
    ∀ task ∈ tasks, ∃ source target, task = .connect source target := by
  obtain ⟨stmt, -, hcall⟩ := bind_eq_ok_iff.mp h
  cases hkind : stmt.call? with
  | none =>
    rw [hkind] at hcall
    cases hcall
    simp
  | some call =>
    rw [hkind] at hcall
    obtain ⟨method, -, hmethod⟩ := bind_eq_ok_iff.mp hcall
    obtain ⟨returned, -, hpure⟩ := bind_eq_ok_iff.mp hmethod
    cases hpure
    intro task htask
    simp only [List.mem_append, List.mem_map, List.mem_flatMap] at htask
    rcases htask with ⟨pair, -, rfl⟩ | ⟨result, -, value, -, rfl⟩
    · exact ⟨_, _, rfl⟩
    · exact ⟨_, _, rfl⟩

/-- What every task does to the tables of contexts and objects. -/
theorem numbers_of_perform (hinv : old.Invariant program policy (task :: rest))
    (h : perform program policy old task = .ok (new, tasks)) :
    Numbers policy old task new tasks := by
  cases task with
  | reach method =>
    simp only [perform] at h
    split at h
    · cases h
      exact .of_eq rfl rfl (by simp)
    · obtain ⟨body, hbody, hpure⟩ := bind_eq_ok_iff.mp h
      cases hpure
      refine .of_eq rfl rfl ?_
      intro context site stmt hmem
      obtain ⟨item, hitem, heq⟩ := List.mem_map.mp hmem
      cases heq
      rw [((Program.mem_sites_iff hbody).mp hitem).1]
  | execute context site stmt => exact numbers_execute hinv h
  | connect source target =>
    obtain ⟨connected, hconnect, hpure⟩ := bind_eq_ok_iff.mp h
    cases hpure
    obtain ⟨hcontexts, hobjects⟩ := tables_connect hconnect
    exact .of_eq hcontexts hobjects (by simp)
  | access context object site => exact numbers_access hinv h
  | dispatch context object receiver type site => exact numbers_dispatch hinv h
  | link kind site callee =>
    simp only [perform] at h
    split at h
    · cases h
      exact .of_eq rfl rfl (by simp)
    · obtain ⟨bound, hbound, hpure⟩ := bind_eq_ok_iff.mp h
      cases hpure
      refine .of_eq rfl rfl ?_
      intro context executed stmt hmem
      rcases List.mem_cons.mp hmem with heq | hmem
      · cases heq
      · obtain ⟨source, target, heq⟩ := exists_connect_of_mem_bindings hbound _ hmem
        cases heq

/-- The policy formed the contexts and the objects of a run.  A statement on the stack is one
of a reachable method, so that the objects that it will allocate have one as well. -/
structure Formed (policy : Policy) (state : State) (stack : List Task) : Prop where
  uniform : state.contexts.Uniform policy.strategy
  executed : ∀ context site stmt, .execute context site stmt ∈ stack →
    state.Holds (.reachable context site.method)
  allocated : ∀ id : CsObjId, id.index < state.csObjects.size → ∃ context site,
    state.Holds (.reachable context site.method) ∧ state.Allocated policy context site id

/-- Performing a task keeps contexts and objects in form. -/
theorem Formed.perform {added : Judgement ContextId CsObjId → Prop}
    {offered : Pointer → CsObjId → Prop} (h : old.Formed policy (task :: rest))
    (hnumbers : Numbers policy old task new tasks)
    (hperformed : Performed program policy old task new tasks added offered) :
    new.Formed policy (tasks ++ rest) := by
  have hextend := hperformed.change.extend
  refine ⟨?_, ?_, ?_⟩
  · intro parts hparts
    rcases hnumbers.contexts parts hparts with hold | hselected
    · exact h.uniform parts hold
    · exact hselected.admits h.uniform
  · intro context site stmt hmem
    rcases List.mem_append.mp hmem with hnew | hold
    · -- The effect of the only task that brings statements is that their method is reachable.
      have heffect := hperformed.effect
      rw [hnumbers.executed context site stmt hnew] at heffect
      exact heffect
    · exact hextend.holds (h.executed context site stmt (List.mem_cons_of_mem task hold))
  · intro id hid
    rcases hnumbers.objects id hid with hold | ⟨context, site, stmt, rfl, hallocated⟩
    · obtain ⟨context, site, hreachable, hallocated⟩ := h.allocated id hold
      exact ⟨context, site, hextend.holds hreachable, hallocated.extend hextend⟩
    · exact ⟨context, site, hextend.holds (h.executed context site stmt List.mem_cons_self),
        hallocated⟩

/-- Contexts and objects stay in form along a run. -/
theorem kept_formed (program : Program) (policy : Policy) :
    Kept program policy fun state stack => state.Formed policy stack where
  started _ _ _ _ := by
    refine ⟨?_, by simp, fun id hid => absurd hid (Nat.not_lt_zero _)⟩
    intro parts hparts
    obtain rfl : parts = [] := Array.mem_singleton.mp hparts
    simp
  performed hinv hperform hperformed h := h.perform (numbers_of_perform hinv hperform) hperformed
  taken htaken h := by
    refine ⟨h.uniform, ?_, ?_⟩
    · intro context site stmt hmem
      obtain ⟨_, _, _, _, _, hopens⟩ := (htaken.tasks_iff _).mp hmem
      cases hopens
    · intro id hid
      obtain ⟨context, site, hreachable, hallocated⟩ := h.allocated id hid
      exact ⟨context, site, htaken.extend.holds hreachable, hallocated.extend htaken.extend⟩
  phase _ _ h := ⟨h.uniform, h.executed, h.allocated⟩

/-- What the settings promise on the contexts of a run. -/
structure WithinBounds (program : Program) (config : Config.PointsTo) (state : State) :
    Prop where
  depth : ∀ parts ∈ state.contexts.table.items, parts.length ≤ config.context.depth
  insensitive : config.context = .insensitive → state.contexts.table.items = #[[]]
  kind : ∀ parts ∈ state.contexts.table.items, ∀ elem ∈ parts, config.context.Admits elem
  /-- Every object and every class in a context exists. -/
  named : ∀ parts ∈ state.contexts.table.items,
    (∀ id : ObjId, .object id ∈ parts → id.index < state.heap.size) ∧
      ∀ id : ClassId, .type id ∈ parts → id.index < program.listing.classes.size
  /-- An object has the end of the context under which a reachable method allocates it. -/
  heap : ∀ object ∈ state.csObjects.items, ∃ obj lhs caller callerParts heapParts,
    state.heap.get object.object = .ok obj ∧
      program.getStmt obj.alloc = .ok (.alloc lhs obj.type) ∧
      ⟨caller, obj.alloc.method⟩ ∈ state.calls.reachable.toList ∧
      state.contexts.elements caller = .ok callerParts ∧
      state.contexts.elements object.context = .ok heapParts ∧
      heapParts <:+ callerParts ∧
      heapParts.length = min config.effectiveHeapDepth callerParts.length
  /-- A static call without receiver keeps the context of its caller, unless call sites tell
  calls apart. -/
  inherits : ∀ k, config.context = .object k ∨ config.context = .type k →
    ∀ edge ∈ state.calls.edges.toList, ∃ call,
      program.getStmt edge.site.site = .ok (.invoke call) ∧ edge.kind = call.kind ∧
        (edge.kind = .static → call.base = none → edge.callee.context = edge.site.context)

end State

section Reaches

variable {program : Program} {policy : Policy} {config : Config.PointsTo} {state : State}

/-- A table in which every sequence is empty holds one sequence. -/
theorem Contexts.items_eq_of_forall_nil {contexts : Contexts}
    (h : ∀ parts ∈ contexts.table.items, parts = []) : contexts.table.items = #[[]] := by
  -- Any position holds the empty sequence, and that has the number zero.
  have hzero : ∀ number parts, contexts.table.items[number]? = some parts → number = 0 := by
    intro number parts hparts
    rw [h parts (Array.mem_iff_getElem?.mpr ⟨number, hparts⟩)] at hparts
    exact Interner.getElem?_injective hparts contexts.root_eq
  refine Array.ext_getElem? fun number => ?_
  cases number with
  | zero => exact contexts.root_eq
  | succ number =>
    cases hparts : contexts.table.items[number + 1]? with
    | none => simp
    | some parts => cases hzero _ parts hparts

/-- The rules let a call without receiver keep the context of its caller when the policy does
not count call sites. -/
theorem Derives.keeps_context {kind : CallKind} {trail selected : Trail} {site : Site}
    {callee : MethodId} (h : Derives program policy (.calls kind trail site selected callee))
    (hpolicy : ∀ (caller : Trail) (mark : Mark), policy.staticParts caller mark = caller)
    {call : Call} (hstmt : program.getStmt site = .ok (.invoke call)) (hbase : call.base = none) :
    selected = trail := by
  cases h with
  | staticCall => exact hpolicy trail _
  | receiverCall _ hstmt' hreceiver =>
    rw [hstmt] at hstmt'
    cases hstmt'
    rw [hbase] at hreceiver
    cases hreceiver

/-- A context that can be read names only objects and classes that exist. -/
theorem State.ReadableParts.named {parts : List ContextElem}
    (h : state.ReadableParts program policy parts) :
    (∀ id : ObjId, .object id ∈ parts → id.index < state.heap.size) ∧
      ∀ id : ClassId, .type id ∈ parts → id.index < program.listing.classes.size := by
  constructor
  · intro id hid
    obtain ⟨mark, hreads, -⟩ := h.2 _ hid
    cases hreads with
    | object hobj => exact Interner.lt_size_of_getElem? hobj
  · intro id hid
    obtain ⟨mark, hreads, hrange⟩ := h.2 _ hid
    cases hreads
    exact hrange

/-- Every object was allocated by a reachable method, and took over the end of its context. -/
theorem State.Formed.exists_allocation {stack : List Task} (h : state.Formed policy stack)
    (horderly : state.Orderly program policy) {object : CsObj}
    (hobject : object ∈ state.csObjects.items) : ∃ obj lhs caller callerParts heapParts,
    state.heap.get object.object = .ok obj ∧
      program.getStmt obj.alloc = .ok (.alloc lhs obj.type) ∧
      ⟨caller, obj.alloc.method⟩ ∈ state.calls.reachable.toList ∧
      state.contexts.elements caller = .ok callerParts ∧
      state.contexts.elements object.context = .ok heapParts ∧
      heapParts <:+ callerParts ∧
      heapParts.length = min policy.heapDepth callerParts.length := by
  obtain ⟨number, hnumber⟩ := Array.mem_iff_getElem?.mp hobject
  obtain ⟨caller, site, hreachable, parts, object', obj, hparts, hobject', hheap, hobj, rfl⟩ :=
    h.allocated ⟨number⟩ (Interner.lt_size_of_getElem? hnumber)
  obtain rfl : object = object' := Option.some.inj (hnumber.symm.trans hobject')
  obtain ⟨lhs, hstmt⟩ := horderly.objects obj (Array.mem_iff_getElem?.mpr ⟨_, hobj⟩)
  have hdepth := (horderly.contexts parts (Array.mem_iff_getElem?.mpr ⟨_, hparts⟩)).1
  exact ⟨obj, lhs, caller, parts, _, Handle.lookup_eq_ok_iff.mpr hobj, hstmt,
    Array.mem_toList_iff.mpr (holds_reachable_iff.mp hreachable),
    Contexts.elements_eq_ok_iff.mpr hparts, Contexts.elements_eq_ok_iff.mpr hheap,
    policy.heapParts_suffix parts, Policy.length_heapParts hdepth⟩

/-- In the call graph of a run a call without receiver keeps the context of its caller when the
policy does not count call sites. -/
theorem State.Reaches.keeps_context (h : State.Reaches program policy state)
    (hpolicy : ∀ (caller : Trail) (mark : Mark), policy.staticParts caller mark = caller)
    {edge : CallEdge CsSite CsMethod} (hedge : edge ∈ state.calls.edges.toList) :
    ∃ call, program.getStmt edge.site.site = .ok (.invoke call) ∧ edge.kind = call.kind ∧
      (call.base = none → edge.callee.context = edge.site.context) := by
  have hholds : state.Holds (.calls edge.kind edge.site.context edge.site.site
      edge.callee.context edge.callee.method) :=
    holds_calls_iff.mpr (Array.mem_toList_iff.mp hedge)
  obtain ⟨trail, selected, hcaller, hcallee, hderives⟩ := (h.justified hholds).calls
  obtain ⟨-, call, hstmt, hkind⟩ := hderives.inRange
  refine ⟨call, hstmt, hkind.symm, fun hbase => ?_⟩
  rw [hderives.keeps_context hpolicy hstmt hbase] at hcallee
  exact readsContext_injective _ _ trail hcallee hcaller

/-- At every step of a run the contexts are within the bounds of the settings. -/
theorem contexts_withinBounds (h : State.Reaches program (.ofConfig config) state) :
    state.WithinBounds program config := by
  obtain ⟨stack, hinv⟩ := h.exists_invariant
  obtain ⟨count, hafter⟩ := h.exists_after
  have hformed := (State.kept_formed program (.ofConfig config)).after hafter
  have hcontexts := hinv.orderly.contexts
  have hdepth : ∀ parts ∈ state.contexts.table.items, parts.length ≤ config.context.depth :=
    fun parts hparts => (hcontexts parts hparts).1
  refine ⟨hdepth, ?_, hformed.uniform, fun parts hparts => (hcontexts parts hparts).named,
    fun object hobject => hformed.exists_allocation hinv.orderly hobject, ?_⟩
  · intro hinsensitive
    refine Contexts.items_eq_of_forall_nil fun parts hparts => ?_
    have hlength := hdepth parts hparts
    rw [hinsensitive] at hlength
    exact List.eq_nil_of_length_eq_zero (Nat.le_zero.mp hlength)
  · intro k hstrategy edge hedge
    have hpolicy : ∀ (caller : Trail) (mark : Mark),
        (Policy.ofConfig config).staticParts caller mark = caller := by
      intro caller mark
      rcases hstrategy with heq | heq <;> simp [Policy.staticParts, Policy.ofConfig, heq]
    obtain ⟨call, hstmt, hkind, hkeeps⟩ := h.keeps_context hpolicy hedge
    exact ⟨call, hstmt, hkind, fun _ hbase => hkeeps hbase⟩

/-- A run on `knotProgram`, whose method calls itself and allocates, ends within the bounds of
two receivers for calls and one for objects. -/
theorem contexts_withinBounds_knot :
    Config.PointsTo.validate ⟨.object 2, some 1⟩ = .ok () ∧
      ∃ final, State.Reaches knotProgram (.ofConfig ⟨.object 2, some 1⟩) final ∧
        final.phase = .done ∧ final.WithinBounds knotProgram ⟨.object 2, some 1⟩ := by
  obtain ⟨final, -, hreaches, hdone⟩ :=
    State.exists_solve knotProgram (.ofConfig ⟨.object 2, some 1⟩)
  exact ⟨by decide, final, hreaches, hdone, contexts_withinBounds hreaches⟩

end Reaches

end PointsTo

end ObjectFlow
