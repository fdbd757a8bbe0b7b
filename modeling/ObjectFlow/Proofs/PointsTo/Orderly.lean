import ObjectFlow.Proofs.PointsTo.Change

/-!
# Tables in order

The tables of a run refer to each other and to the program by handles.  `State.Orderly`
says that all of these handles can be read: every context is a short sequence of parts of
the program, every object is an allocation under a context, every pointer is a place of
the program, and sets are ascending.  The operations of the solver keep the tables in
order.
-/

namespace ObjectFlow.PointsTo

/-- The statement or the class of a mark is one of the program. -/
def Mark.InRange (program : Program) : Mark → Prop
  | .callSite site => ∃ stmt, program.getStmt site = .ok stmt
  | .object alloc => ∃ stmt, program.getStmt alloc = .ok stmt
  | .type id => id.index < program.listing.classes.size

namespace State

variable {program : Program} {policy : Policy} {state : State}

/-- A part of a context that stands for a mark of the program. -/
def ReadableElem (program : Program) (state : State) (elem : ContextElem) : Prop :=
  ∃ mark, state.heap.ReadsElem elem mark ∧ mark.InRange program

/-- A sequence of parts that stands for a context. -/
def ReadableParts (program : Program) (policy : Policy) (state : State)
    (parts : List ContextElem) : Prop :=
  parts.length ≤ policy.strategy.depth ∧ ∀ elem ∈ parts, state.ReadableElem program elem

/-- A pointer that stands for a place of the program. -/
def ReadablePlace (program : Program) (state : State) (p : Pointer) : Prop :=
  ∃ place, p.Related state.ReadsContext state.ReadsObject place ∧ place.InRange program

/-- All handles in the tables can be read. -/
structure Orderly (program : Program) (policy : Policy) (state : State) : Prop where
  objects : ∀ obj ∈ state.heap.objects.items,
    ∃ lhs, program.getStmt obj.alloc = .ok (.alloc lhs obj.type)
  contexts : ∀ parts ∈ state.contexts.table.items, state.ReadableParts program policy parts
  csObjects : ∀ object ∈ state.csObjects.items,
    object.context.index < state.contexts.size ∧ object.object.index < state.heap.size
  pointers : ∀ p ∈ state.pointers.names.items, state.ReadablePlace program p
  sets : ∀ set ∈ state.pointers.sets, set.Ascending
  entries : ∀ entry ∈ state.worklist.toList, entry.2.Ascending
  linked : state.Linked

theorem ReadableElem.extend {old new : State} (hextend : old.Extends new) {elem : ContextElem}
    (h : old.ReadableElem program elem) : new.ReadableElem program elem := by
  obtain ⟨mark, hreads, hrange⟩ := h
  exact ⟨mark, hextend.readsElem hreads, hrange⟩

theorem ReadableParts.extend {old new : State} (hextend : old.Extends new)
    {parts : List ContextElem} (h : old.ReadableParts program policy parts) :
    new.ReadableParts program policy parts :=
  ⟨h.1, fun elem helem => (h.2 elem helem).extend hextend⟩

theorem ReadablePlace.extend {old new : State} (hextend : old.Extends new) {p : Pointer}
    (h : old.ReadablePlace program p) : new.ReadablePlace program p := by
  obtain ⟨place, hreads, hrange⟩ := h
  exact ⟨place, hreads.mono (fun _ _ => hextend.readsContext) fun _ _ => hextend.readsObject,
    hrange⟩

/-- The tables of a run that did nothing yet. -/
theorem orderly_initial (program : Program) (policy : Policy) :
    Orderly program policy ({} : State) where
  objects obj hmem := by simp at hmem
  contexts parts hmem := by
    have htable : ({} : State).contexts.table.items = #[[]] := rfl
    rw [htable, Array.mem_singleton] at hmem
    subst hmem
    exact ⟨Nat.zero_le _, by simp⟩
  csObjects object hmem := by simp at hmem
  pointers p hmem := by simp at hmem
  sets set hmem := by simp at hmem
  entries entry hmem := by simp [Queue.toList] at hmem
  linked := ⟨by simp [Queue.toList], by simp⟩

/-- Every context of an orderly run can be read. -/
theorem Orderly.exists_readsContext (h : state.Orderly program policy) {c : ContextId}
    (hlt : c.index < state.contexts.size) : ∃ trail, state.ReadsContext c trail := by
  obtain ⟨parts, hparts⟩ := Interner.exists_getElem?_of_lt hlt
  have helems := (h.contexts parts (Array.mem_iff_getElem?.mpr ⟨_, hparts⟩)).2
  have hall : ∃ trail, List.Forall₂ state.heap.ReadsElem parts trail := by
    clear hparts
    induction parts with
    | nil => exact ⟨[], .nil⟩
    | cons elem parts ih =>
      obtain ⟨trail, hrest⟩ := ih fun e he => helems e (List.mem_cons_of_mem _ he)
      obtain ⟨mark, hmark, -⟩ := helems elem List.mem_cons_self
      exact ⟨mark :: trail, .cons hmark hrest⟩
  obtain ⟨trail, htrail⟩ := hall
  exact ⟨trail, parts, hparts, htrail⟩

theorem Orderly.push (h : state.Orderly program policy) {id : PointerId}
    (hlt : id.index < state.pointers.names.size) {objects : PointsToSet}
    (hobjects : objects.Ascending) : (state.push id objects).Orderly program policy := by
  obtain ⟨place, hplace⟩ := Interner.exists_getElem?_of_lt hlt
  refine { h with entries := ?_, linked := (change_push h.linked id hplace objects).linked }
  intro entry hentry
  rw [toList_push, List.mem_append, List.mem_singleton] at hentry
  rcases hentry with hentry | rfl
  · exact h.entries entry hentry
  · exact hobjects

theorem Orderly.insertPointer (h : state.Orderly program policy) {place : Pointer}
    (hplace : state.ReadablePlace program place) :
    (state.insertPointer place).Orderly program policy := by
  have hquiet := quiet_insertPointer h.linked place
  refine { h with pointers := ?_, sets := ?_, linked := hquiet.linked }
  · intro p hp
    have hnames : (state.insertPointer place).pointers.names =
        state.pointers.names.insert place := Pointers.names_insert _ _
    rw [hnames, Interner.mem_insert_iff] at hp
    rcases hp with hp | rfl
    · exact (h.pointers p hp).extend hquiet.extend
    · exact hplace.extend hquiet.extend
  · intro set hset
    obtain ⟨number, hnumber⟩ := Array.mem_iff_getElem?.mp hset
    rcases Pointers.getElem?_sets_insert hnumber with hold | ⟨rfl, -⟩
    · exact h.sets set (Array.mem_iff_getElem?.mpr ⟨number, hold⟩)
    · exact SortedSet.ascending_empty

theorem Orderly.offer (h : state.Orderly program policy) {place : Pointer}
    (hplace : state.ReadablePlace program place) (object : CsObjId) :
    (state.offer place object).Orderly program policy :=
  (h.insertPointer hplace).push
    (Interner.lt_size_of_getElem? (Pointers.getElem?_idOf_insert state.pointers place))
    (SortedSet.ascending_singleton object)

theorem Orderly.connect (h : state.Orderly program policy) {source target : Pointer}
    (hsource : state.ReadablePlace program source) (htarget : state.ReadablePlace program target)
    {new : State} (hnew : state.connect source target = .ok new) :
    new.Orderly program policy := by
  have hfirst := h.insertPointer hsource
  have hnamed := hfirst.insertPointer
    (htarget.extend (quiet_insertPointer h.linked source).extend)
  obtain ⟨ha, hb⟩ := getElem?_idOf_insertPointers state source target
  unfold State.connect at hnew
  generalize (state.insertPointer source).insertPointer target = named at *
  simp only at hnew
  generalize named.pointers.idOf source = a at *
  generalize named.pointers.idOf target = b at *
  split at hnew
  · cases hnew
    exact hnamed
  · obtain ⟨objects, hobjects, hpure⟩ := bind_eq_ok_iff.mp hnew
    have hset := Handle.lookup_eq_ok_iff.mp hobjects
    have hadded : Orderly program policy { named with flow := named.flow.addEdge a b } :=
      { hnamed with linked := (change_addEdge hnamed.linked ha hb).linked }
    cases hpure
    split
    · exact hadded
    · exact hadded.push (Interner.lt_size_of_getElem? hb)
        (hnamed.sets objects (Array.mem_iff_getElem?.mpr ⟨_, hset⟩))

/-- A selection adds one sequence to the table of contexts. -/
theorem Orderly.selectContext (h : state.Orderly program policy) {parts : List ContextElem}
    (hparts : state.ReadableParts program policy parts) {contexts : Contexts}
    (hextend : state.contexts.table.Extends contexts.table)
    (hitems : ∀ elems ∈ contexts.table.items, elems ∈ state.contexts.table.items ∨ elems = parts) :
    Orderly program policy { state with contexts } := by
  have hquiet := quiet_tables h.linked (Interner.Extends.refl state.heap.objects) hextend
    (Interner.Extends.refl state.csObjects)
  refine { h with contexts := ?_, csObjects := ?_, pointers := ?_, linked := hquiet.linked }
  · intro elems helems
    rcases hitems elems helems with hold | rfl
    · exact (h.contexts elems hold).extend hquiet.extend
    · exact hparts.extend hquiet.extend
  · intro object hobject
    obtain ⟨hcontext, hlt⟩ := h.csObjects object hobject
    exact ⟨Nat.lt_of_lt_of_le hcontext hextend.size_le, hlt⟩
  · intro p hp
    exact (h.pointers p hp).extend hquiet.extend

theorem ReadableParts.heap {parts : List ContextElem}
    (h : state.ReadableParts program policy parts) :
    state.ReadableParts program policy (policy.heapParts parts) :=
  ⟨Policy.length_heapParts_le h.1, fun elem helem => h.2 elem (Policy.mem_of_mem_heapParts helem)⟩

theorem ReadableParts.static {parts : List ContextElem}
    (h : state.ReadableParts program policy parts) {site : Site} {stmt : Stmt}
    (hsite : program.getStmt site = .ok stmt) :
    state.ReadableParts program policy (policy.staticParts parts (.callSite site)) := by
  refine ⟨Policy.length_staticParts_le h.1 _, fun elem helem => ?_⟩
  rcases Policy.mem_of_mem_staticParts helem with hold | rfl
  · exact h.2 elem hold
  · exact ⟨_, .callSite site, stmt, hsite⟩

theorem ReadableParts.instance {caller heap : List ContextElem}
    (hcaller : state.ReadableParts program policy caller)
    (hheap : state.ReadableParts program policy heap) {site : Site} {stmt : Stmt}
    (hsite : program.getStmt site = .ok stmt) {receiver : Receiver}
    (hobject : state.ReadableElem program (.object receiver.object))
    (hclass : receiver.allocClass.index < program.listing.classes.size) :
    state.ReadableParts program policy (policy.receiverParts caller heap site receiver) := by
  refine ⟨Policy.length_instanceParts_le policy _ _ _ _ _, fun elem helem => ?_⟩
  rcases Policy.mem_of_mem_instanceParts helem with hold | hold | rfl | rfl | rfl
  · exact hcaller.2 elem hold
  · exact hheap.2 elem hold
  · exact ⟨_, .callSite site, stmt, hsite⟩
  · exact hobject
  · exact ⟨_, .type _, hclass⟩

/-- The object of an allocation that is made under a context. -/
def Allocated (policy : Policy) (state : State) (context : ContextId) (site : Site)
    (id : CsObjId) : Prop :=
  ∃ parts object obj, state.contexts.table.items[context.index]? = some parts ∧
    state.csObjects.items[id.index]? = some object ∧
    state.contexts.table.items[object.context.index]? = some (policy.heapParts parts) ∧
    state.heap.objects.items[object.object.index]? = some obj ∧ obj.alloc = site

theorem Allocated.extend {old new : State} (hextend : old.Extends new) {context : ContextId}
    {site : Site} {id : CsObjId} (h : old.Allocated policy context site id) :
    new.Allocated policy context site id := by
  obtain ⟨parts, object, obj, hparts, hobject, hheap, hobj, halloc⟩ := h
  exact ⟨parts, object, obj, hextend.contexts _ _ hparts, hextend.csObjects _ _ hobject,
    hextend.contexts _ _ hheap, hextend.heap _ _ hobj, halloc⟩

/-- An allocation offers its object to its variable. -/
theorem exists_allocate (h : state.Orderly program policy) {context : ContextId} {site : Site}
    {lhs : VarId} {type : Ty} (hcontext : context.index < state.contexts.size)
    (hstmt : program.getStmt site = .ok (.alloc lhs type)) :
    ∃ new object, state.allocate policy context site lhs type = .ok new ∧
      new.Orderly program policy ∧ new.Allocated policy context site object ∧
      Change state new (fun _ => False) (fun p o => p = .var context lhs ∧ o = object) 1 := by
  obtain ⟨parts, hparts⟩ := Interner.exists_getElem?_of_lt hcontext
  have hreadable := h.contexts parts (Array.mem_iff_getElem?.mpr ⟨_, hparts⟩)
  obtain ⟨contexts, heapContext, hselect, hcontexts, hheapParts, hitems⟩ :=
    policy.selects_heapContext hparts
  obtain ⟨obj, hobj, hcode, hobjCases⟩ :=
    state.heap.objects.exists_getElem?_numberOf ⟨site, type⟩
  have halloc : obj.alloc = site := LawfulKey.code_injective hcode
  let object : CsObj := ⟨heapContext, ⟨state.heap.objects.numberOf ⟨site, type⟩⟩⟩
  let tables : State :=
    { state with
      heap := ⟨state.heap.objects.insert ⟨site, type⟩⟩
      contexts
      csObjects := state.csObjects.insert object }
  have hquiet : Quiet state tables :=
    quiet_tables h.linked (Interner.extends_insert _ _) hcontexts (Interner.extends_insert _ _)
  have htables : tables.Orderly program policy := by
    refine { h with objects := ?_, contexts := ?_, csObjects := ?_, pointers := ?_,
                    linked := hquiet.linked }
    · intro found hfound
      rcases Interner.mem_insert_cases hfound with hold | rfl
      · exact h.objects found hold
      · exact ⟨lhs, hstmt⟩
    · intro elems helems
      rcases hitems elems helems with hold | rfl
      · exact (h.contexts elems hold).extend hquiet.extend
      · exact hreadable.heap.extend hquiet.extend
    · intro found hfound
      rcases Interner.mem_insert_cases hfound with hold | rfl
      · obtain ⟨hltContext, hltObject⟩ := h.csObjects found hold
        exact ⟨Nat.lt_of_lt_of_le hltContext hcontexts.size_le,
          Nat.lt_of_lt_of_le hltObject (Interner.extends_insert _ _).size_le⟩
      · exact ⟨Interner.lt_size_of_getElem? hheapParts, Interner.lt_size_of_getElem? hobj⟩
    · intro p hp
      exact (h.pointers p hp).extend hquiet.extend
  obtain ⟨trail, htrail⟩ := h.exists_readsContext hcontext
  have hplace : tables.ReadablePlace program (.var context lhs) :=
    ⟨.var trail lhs, .var (hquiet.extend.readsContext htrail) lhs,
      Program.var_lt_of_getStmt hstmt (by simp [Stmt.writes?])⟩
  have hoffer := change_offer htables.linked (.var context lhs)
    ⟨state.csObjects.numberOf object⟩
  refine ⟨tables.offer (.var context lhs) ⟨state.csObjects.numberOf object⟩,
    ⟨state.csObjects.numberOf object⟩, ?_, htables.offer hplace _, ?_, hoffer.after_quiet hquiet⟩
  · unfold allocate
    rw [hselect]
    rfl
  · refine Allocated.extend hoffer.extend ⟨parts, object, obj, ?_, ?_, hheapParts, hobj, halloc⟩
    · exact hcontexts _ _ hparts
    · exact Interner.getElem?_numberOf _ _

theorem receiver_eq_ok_iff {id : CsObjId} {receiver : Receiver} {type : Ty} :
    state.receiver program id = .ok (receiver, type) ↔
      ∃ object obj container, state.csObjects.items[id.index]? = some object ∧
        state.heap.objects.items[object.object.index]? = some obj ∧
        program.getMethod obj.alloc.method = .ok container ∧
        receiver = ⟨object.context, object.object, container.declaringClass⟩ ∧ type = obj.type := by
  simp only [State.receiver, bind_eq_ok_iff, Heap.get, Handle.lookup_eq_ok_iff, pure_eq_ok,
    Except.ok.injEq, Prod.mk.injEq]
  constructor
  · rintro ⟨object, hobject, obj, hobj, container, hcontainer, rfl, rfl⟩
    exact ⟨object, obj, container, hobject, hobj, hcontainer, rfl, rfl⟩
  · rintro ⟨object, obj, container, hobject, hobj, hcontainer, rfl, rfl⟩
    exact ⟨object, hobject, obj, hobj, container, hcontainer, rfl, rfl⟩

/-- An object keeps its receiver. -/
theorem Extends.receiver {old new : State} (hextend : old.Extends new) {id : CsObjId}
    {answer : Receiver × Ty} (h : old.receiver program id = .ok answer) :
    new.receiver program id = .ok answer := by
  obtain ⟨receiver, type⟩ := answer
  rw [receiver_eq_ok_iff] at h ⊢
  obtain ⟨object, obj, container, hobject, hobj, hrest⟩ := h
  exact ⟨object, obj, container, hextend.csObjects _ _ hobject, hextend.heap _ _ hobj, hrest⟩

/-- The receiver of an object that can be read is what its origin says. -/
theorem Orderly.exists_receiver (h : state.Orderly program policy) {id : CsObjId}
    {origin : Origin} (hreads : state.ReadsObject id origin) :
    ∃ receiver type lhs container, state.receiver program id = .ok (receiver, type) ∧
      program.getStmt origin.alloc = .ok (.alloc lhs type) ∧
      program.getMethod origin.alloc.method = .ok container ∧
      receiver.allocClass = container.declaringClass ∧
      state.ReadsContext receiver.heapContext origin.context ∧
      state.heap.ReadsElem (.object receiver.object) (.object origin.alloc) := by
  obtain ⟨object, obj, hobject, hcontext, hobj, halloc⟩ := hreads
  obtain ⟨lhs, hstmt⟩ := h.objects obj (Array.mem_iff_getElem?.mpr ⟨_, hobj⟩)
  obtain ⟨container, hcontainer, -⟩ := Program.getStmt_eq_ok_iff.mp hstmt
  refine ⟨⟨object.context, object.object, container.declaringClass⟩, obj.type, lhs, container,
    ?_, halloc ▸ hstmt, halloc ▸ hcontainer, rfl, hcontext, halloc ▸ .object hobj⟩
  exact receiver_eq_ok_iff.mpr ⟨object, obj, container, hobject, hobj, hcontainer, rfl, rfl⟩

end State

end ObjectFlow.PointsTo
