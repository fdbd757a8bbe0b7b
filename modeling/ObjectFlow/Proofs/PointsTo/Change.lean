import ObjectFlow.Proofs.PointsTo.Reading
import ObjectFlow.Proofs.SortedSet

/-!
# What an operation adds to a run

Every operation of the solver extends the tables of its state.  `State.Change` says
exactly what it adds: the judgements that are recorded after it and were not before, and
the objects that it puts on their way to a place.  The operations are described once,
each by the change that it makes; nothing else needs to look into them.
-/

namespace ObjectFlow.PointsTo

namespace State

/-- The handles that the worklist and the flow graph use have a name. -/
structure Linked (state : State) : Prop where
  entry : ∀ entry ∈ state.worklist.toList, entry.1.index < state.pointers.names.size
  edge : ∀ edge ∈ state.flow.edges.items,
    edge.1.index < state.pointers.names.size ∧ edge.2.index < state.pointers.names.size

theorem pending_iff {state : State} {place : Pointer} {object : CsObjId} :
    state.Pending place object ↔ ∃ (id : PointerId) (objects : PointsToSet),
      state.pointers.names.items[id.index]? = some place ∧
        (id, objects) ∈ state.worklist.toList ∧ object ∈ objects.toList := by
  simp only [Pending, Pointers.find?_eq_some_iff]

/-- `new` records what `old` records and what is `added`, and has on its way what `old` has
and what is `offered`, in at most `pushes` more entries of the worklist. -/
structure Change (old new : State) (added : Judgement ContextId CsObjId → Prop)
    (offered : Pointer → CsObjId → Prop) (pushes : Nat) : Prop where
  extend : old.Extends new
  linked : new.Linked
  phase : new.phase = old.phase
  length_le : new.worklist.toList.length ≤ old.worklist.toList.length + pushes
  holds : ∀ j, new.Holds j → old.Holds j ∨ added j
  added : ∀ j, added j → new.Holds j
  pending : ∀ place object, new.Pending place object →
    old.Pending place object ∨ offered place object
  keeps : ∀ place object, old.Pending place object → new.Pending place object
  offered : ∀ place object, offered place object → new.Pending place object

variable {old middle new state : State} {added added' : Judgement ContextId CsObjId → Prop}
  {offered offered' : Pointer → CsObjId → Prop} {pushes pushes' : Nat}

theorem Change.trans (h : Change old middle added offered pushes)
    (h' : Change middle new added' offered' pushes') :
    Change old new (fun j => added j ∨ added' j)
      (fun place object => offered place object ∨ offered' place object) (pushes + pushes') where
  extend := h.extend.trans h'.extend
  linked := h'.linked
  phase := h'.phase.trans h.phase
  length_le := by
    have hfirst := h.length_le
    have hsecond := h'.length_le
    omega
  holds j hj := by
    rcases h'.holds j hj with hmiddle | hnew
    · exact (h.holds j hmiddle).imp_right .inl
    · exact .inr (.inr hnew)
  added j hj := hj.elim (fun hfirst => h'.extend.holds (h.added j hfirst)) (h'.added j)
  pending place object hpending := by
    rcases h'.pending place object hpending with hmiddle | hnew
    · exact (h.pending place object hmiddle).imp_right .inl
    · exact .inr (.inr hnew)
  keeps place object hpending := h'.keeps place object (h.keeps place object hpending)
  offered place object hoffered :=
    hoffered.elim (fun hfirst => h'.keeps place object (h.offered place object hfirst))
      (h'.offered place object)

/-- The same change in other words. -/
theorem Change.congr (h : Change old new added offered pushes)
    (hadded : ∀ j, added j ↔ added' j)
    (hoffered : ∀ place object, offered place object ↔ offered' place object)
    (hpushes : pushes ≤ pushes') : Change old new added' offered' pushes' where
  extend := h.extend
  linked := h.linked
  phase := h.phase
  length_le := Nat.le_trans h.length_le (Nat.add_le_add_left hpushes _)
  holds j hj := (h.holds j hj).imp_right (hadded j).mp
  added j hj := h.added j ((hadded j).mpr hj)
  pending place object hp := (h.pending place object hp).imp_right (hoffered place object).mp
  keeps := h.keeps
  offered place object ho := h.offered place object ((hoffered place object).mpr ho)

/-- A change that records nothing and offers nothing. -/
abbrev Quiet (old new : State) : Prop := Change old new (fun _ => False) (fun _ _ => False) 0

theorem Quiet.holds_iff (h : Quiet old new) {j : Judgement ContextId CsObjId} :
    new.Holds j ↔ old.Holds j :=
  ⟨fun hj => (h.holds j hj).elim id False.elim, h.extend.holds⟩

theorem quiet_refl (hlinked : state.Linked) : Quiet state state where
  extend := .refl state
  linked := hlinked
  phase := rfl
  length_le := Nat.le_refl _
  holds _ := .inl
  added _ h := h.elim
  pending _ _ := .inl
  keeps _ _ h := h
  offered _ _ h := h.elim

/-- A quiet operation before another one does not show. -/
theorem Change.after_quiet (h : Change middle new added offered pushes)
    (hquiet : Quiet old middle) : Change old new added offered pushes :=
  (hquiet.trans h).congr (by simp) (by simp) (by simp)

end State

theorem FlowGraph.edges_addEdge (graph : FlowGraph) (source target : PointerId) :
    (graph.addEdge source target).edges = graph.edges.insert (source, target) := by
  unfold addEdge
  split
  next h => rw [Interner.insert_of_mem (Interner.contains_iff.mp h)]
  · rfl

namespace Pointers

variable {pointers : Pointers}

theorem names_insert (pointers : Pointers) (place : Pointer) :
    (pointers.insert place).names = pointers.names.insert place := by
  unfold insert
  split
  next h => rw [Interner.insert_of_mem (Interner.contains_iff.mp h)]
  · rfl

theorem getElem?_sets_insert {place : Pointer} {n : Nat} {set : PointsToSet}
    (h : (pointers.insert place).sets[n]? = some set) :
    pointers.sets[n]? = some set ∨ (set = {} ∧ n = pointers.names.size) := by
  unfold insert at h
  split at h
  · exact .inl h
  · rw [Array.getElem?_push] at h
    split at h
    next hlast =>
      exact .inr ⟨(Option.some.inj h).symm, hlast.trans pointers.size_sets⟩
    · exact .inl h

theorem getElem?_sets_insert_of_some {n : Nat} {set : PointsToSet}
    (h : pointers.sets[n]? = some set) (place : Pointer) :
    (pointers.insert place).sets[n]? = some set := by
  unfold insert
  split
  · exact h
  · have hlt : n < pointers.sets.size := (Array.getElem?_eq_some_iff.mp h).1
    rw [Array.getElem?_push, if_neg (Nat.ne_of_lt hlt), h]

theorem getElem?_sets_add (pointers : Pointers) (id : PointerId) (objects : PointsToSet) (n : Nat) :
    (pointers.add id objects).sets[n]? =
      if id.index = n then pointers.sets[n]?.map (·.union objects) else pointers.sets[n]? :=
  Array.getElem?_modify

/-- A new pointer points to nothing. -/
theorem mem_setOf_insert {inserted place : Pointer} {object : CsObjId} :
    object ∈ ((pointers.insert inserted).setOf place).toList ↔
      object ∈ (pointers.setOf place).toList := by
  rw [mem_setOf_iff, mem_setOf_iff, names_insert]
  constructor
  · rintro ⟨id, set, hname, hset, hmem⟩
    rcases getElem?_sets_insert hset with hold | ⟨rfl, -⟩
    · rcases Interner.getElem?_items_insert_cases hname with hname | ⟨-, hlast, -⟩
      · exact ⟨id, set, hname, hold, hmem⟩
      · have hlt : id.index < pointers.sets.size := (Array.getElem?_eq_some_iff.mp hold).1
        rw [hlast, pointers.size_sets] at hlt
        exact absurd hlt (Nat.lt_irrefl _)
    · cases hmem
  · rintro ⟨id, set, hname, hset, hmem⟩
    exact ⟨id, set, Interner.getElem?_items_insert hname _,
      getElem?_sets_insert_of_some hset _, hmem⟩

theorem getElem?_idOf_insert (pointers : Pointers) (place : Pointer) :
    (pointers.insert place).names.items[(pointers.insert place).names.numberOf place]? =
      some place := by
  have hmem : place ∈ (pointers.insert place).names.items := by
    rw [names_insert]
    exact pointers.names.mem_insert_self place
  obtain ⟨number, hnumber⟩ := Array.mem_iff_getElem?.mp hmem
  rw [Interner.numberOf_eq_of_getElem? hnumber, hnumber]

end Pointers

namespace State

variable {state : State}

/-- Growing the tables that give meaning to handles is quiet. -/
theorem quiet_tables (hlinked : state.Linked) {heap : Heap} {contexts : Contexts}
    {csObjects : Interner CsObj} (hheap : state.heap.objects.Extends heap.objects)
    (hcontexts : state.contexts.table.Extends contexts.table)
    (hobjects : state.csObjects.Extends csObjects) :
    Quiet state { state with heap, contexts, csObjects } where
  extend :=
    { Extends.refl state with heap := hheap, contexts := hcontexts, csObjects := hobjects }
  linked := ⟨hlinked.entry, hlinked.edge⟩
  phase := rfl
  length_le := Nat.le_refl _
  holds _ := .inl
  added _ h := h.elim
  pending _ _ := .inl
  keeps _ _ h := h
  offered _ _ h := h.elim

/-- Giving a handle to a pointer is quiet. -/
theorem quiet_insertPointer (hlinked : state.Linked) (place : Pointer) :
    Quiet state (state.insertPointer place) := by
  have hnames : (state.insertPointer place).pointers.names =
      state.pointers.names.insert place := Pointers.names_insert _ _
  have hextend : state.pointers.names.Extends (state.insertPointer place).pointers.names := by
    rw [hnames]
    exact Interner.extends_insert _ _
  -- A handle in use had its name before.
  have hname : ∀ {id : PointerId} {p : Pointer}, id.index < state.pointers.names.size →
      (state.insertPointer place).pointers.names.items[id.index]? = some p →
        state.pointers.names.items[id.index]? = some p := by
    intro id p hlt hp
    rw [hnames] at hp
    rcases Interner.getElem?_items_insert_cases hp with hp | ⟨-, hlast, -⟩
    · exact hp
    · exact absurd hlt (by rw [hlast]; exact Nat.lt_irrefl _)
  have hsize := hextend.size_le
  refine ⟨⟨.refl _, .refl _, .refl _, hextend, ?_, .refl _, .refl _, .refl _⟩,
    ⟨?_, ?_⟩, rfl, Nat.le_refl _, ?_, fun _ h => h.elim, ?_, ?_, fun _ _ h => h.elim⟩
  · intro p o h
    exact Pointers.mem_setOf_insert.mpr h
  · intro entry hentry
    exact Nat.lt_of_lt_of_le (hlinked.entry entry hentry) hsize
  · intro edge hedge
    obtain ⟨ha, hb⟩ := hlinked.edge edge hedge
    exact ⟨Nat.lt_of_lt_of_le ha hsize, Nat.lt_of_lt_of_le hb hsize⟩
  · intro j hj
    refine .inl ?_
    cases j with
    | reachable c m => exact hj
    | pointsTo p o => exact Pointers.mem_setOf_insert.mp hj
    | flows p q =>
      rw [holds_flows_iff] at hj ⊢
      obtain ⟨a, b, ha, hb, hedge⟩ := hj
      obtain ⟨hlta, hltb⟩ := hlinked.edge (a, b) hedge
      exact ⟨a, b, hname hlta ha, hname hltb hb, hedge⟩
    | calls kind c site d m => exact hj
  · intro p o hpending
    refine .inl ?_
    rw [pending_iff] at hpending ⊢
    obtain ⟨id, objects, hp, hentry, ho⟩ := hpending
    exact ⟨id, objects, hname (hlinked.entry _ hentry) hp, hentry, ho⟩
  · intro p o hpending
    rw [pending_iff] at hpending ⊢
    obtain ⟨id, objects, hp, hentry, ho⟩ := hpending
    exact ⟨id, objects, hextend _ _ hp, hentry, ho⟩

theorem toList_push (state : State) (id : PointerId) (objects : PointsToSet) :
    (state.push id objects).worklist.toList = state.worklist.toList ++ [(id, objects)] :=
  Queue.toList_push _ _

/-- Putting objects on the worklist offers them to their place. -/
theorem change_push (hlinked : state.Linked) (id : PointerId) {place : Pointer}
    (hname : state.pointers.names.items[id.index]? = some place) (objects : PointsToSet) :
    Change state (state.push id objects) (fun _ => False)
      (fun p o => p = place ∧ o ∈ objects.toList) 1 := by
  refine ⟨{ Extends.refl state with }, ⟨?_, hlinked.edge⟩, rfl, by simp [toList_push],
    fun _ => .inl, fun _ h => h.elim, ?_, ?_, ?_⟩
  · intro entry hentry
    rw [toList_push, List.mem_append, List.mem_singleton] at hentry
    rcases hentry with hentry | rfl
    · exact hlinked.entry entry hentry
    · exact Interner.lt_size_of_getElem? hname
  · intro p o hpending
    rw [pending_iff] at hpending
    obtain ⟨other, objects', hp, hentry, ho⟩ := hpending
    rw [toList_push, List.mem_append, List.mem_singleton] at hentry
    rcases hentry with hentry | heq
    · exact .inl (pending_iff.mpr ⟨other, objects', hp, hentry, ho⟩)
    · cases heq
      exact .inr ⟨Option.some.inj (hp.symm.trans hname), ho⟩
  · intro p o hpending
    rw [pending_iff] at hpending ⊢
    obtain ⟨other, objects', hp, hentry, ho⟩ := hpending
    exact ⟨other, objects', hp, by rw [toList_push]; exact List.mem_append_left _ hentry, ho⟩
  · rintro p o ⟨rfl, ho⟩
    exact pending_iff.mpr ⟨id, objects, hname, by rw [toList_push]; simp, ho⟩

/-- Offering an object to a place. -/
theorem change_offer (hlinked : state.Linked) (place : Pointer) (object : CsObjId) :
    Change state (state.offer place object) (fun _ => False)
      (fun p o => p = place ∧ o = object) 1 := by
  have hquiet := quiet_insertPointer hlinked place
  have hpush := change_push hquiet.linked ((state.insertPointer place).pointers.idOf place)
    (Pointers.getElem?_idOf_insert state.pointers place) (SortedSet.singleton object)
  exact (hpush.after_quiet hquiet).congr (fun _ => Iff.rfl) (by simp) (Nat.le_refl _)

/-- Both ends of a connection have a handle before it is made. -/
theorem getElem?_idOf_insertPointers (state : State) (source target : Pointer) :
    let named := (state.insertPointer source).insertPointer target
    named.pointers.names.items[(named.pointers.idOf source).index]? = some source ∧
      named.pointers.names.items[(named.pointers.idOf target).index]? = some target := by
  refine ⟨?_, Pointers.getElem?_idOf_insert _ target⟩
  have hname : ((state.insertPointer source).insertPointer target).pointers.names.items[
      (state.pointers.insert source).names.numberOf source]? = some source := by
    have hnames : ((state.insertPointer source).insertPointer target).pointers.names =
        (state.pointers.insert source).names.insert target := Pointers.names_insert _ _
    rw [hnames]
    exact Interner.getElem?_items_insert (Pointers.getElem?_idOf_insert _ source) target
  rw [Pointers.idOf, Interner.numberOf_eq_of_getElem? hname, hname]

/-- Noting a new edge of the flow graph. -/
theorem change_addEdge (hlinked : state.Linked) {a b : PointerId} {source target : Pointer}
    (ha : state.pointers.names.items[a.index]? = some source)
    (hb : state.pointers.names.items[b.index]? = some target) :
    Change state { state with flow := state.flow.addEdge a b }
      (fun j => j = .flows source target) (fun _ _ => False) 0 := by
  have hedges := FlowGraph.edges_addEdge state.flow a b
  refine ⟨{ Extends.refl state with flow := ?_ }, ⟨hlinked.entry, ?_⟩, rfl, Nat.le_refl _, ?_, ?_,
    fun _ _ => .inl, fun _ _ h => h, fun _ _ h => h.elim⟩
  · rw [hedges]
    exact Interner.extends_insert _ _
  · intro edge hedge
    rw [hedges, Interner.mem_insert_iff] at hedge
    rcases hedge with hedge | rfl
    · exact hlinked.edge edge hedge
    · exact ⟨Interner.lt_size_of_getElem? ha, Interner.lt_size_of_getElem? hb⟩
  · intro j hj
    cases j with
    | reachable c m => exact .inl hj
    | pointsTo p o => exact .inl hj
    | flows p q =>
      rw [holds_flows_iff] at hj
      obtain ⟨a', b', ha', hb', hedge⟩ := hj
      rw [hedges, Interner.mem_insert_iff] at hedge
      rcases hedge with hedge | heq
      · exact .inl (holds_flows_iff.mpr ⟨a', b', ha', hb', hedge⟩)
      · cases heq
        rw [Option.some.inj (ha'.symm.trans ha), Option.some.inj (hb'.symm.trans hb)]
        exact .inr rfl
    | calls kind c site d m => exact .inl hj
  · rintro j rfl
    refine holds_flows_iff.mpr ⟨a, b, ha, hb, ?_⟩
    rw [hedges]
    exact Interner.mem_insert_self _ _

/-- Connecting two places notes the edge, and a new edge offers to its target what its
source points to. -/
theorem change_connect (hlinked : state.Linked) (source target : Pointer) :
    ∃ new, state.connect source target = .ok new ∧
      Change state new (fun j => j = .flows source target) (fun p o => p = target ∧
        ¬ state.Holds (.flows source target) ∧ state.Holds (.pointsTo source o)) 1 := by
  have hsource := quiet_insertPointer hlinked source
  have htarget := quiet_insertPointer hsource.linked target
  have hquiet : Quiet state ((state.insertPointer source).insertPointer target) :=
    htarget.after_quiet hsource
  obtain ⟨ha, hb⟩ := getElem?_idOf_insertPointers state source target
  unfold connect
  generalize (state.insertPointer source).insertPointer target = named at *
  simp only
  generalize named.pointers.idOf source = a at *
  generalize named.pointers.idOf target = b at *
  have hflow : named.flow.hasEdge a b = true ↔ state.Holds (.flows source target) := by
    rw [← hquiet.holds_iff]
    simp [Holds, Pointers.find?_eq_some_iff.mpr ha, Pointers.find?_eq_some_iff.mpr hb]
  by_cases hedge : named.flow.hasEdge a b = true
  · refine ⟨named, by simp [hedge], ?_⟩
    have hknown := hflow.mp hedge
    refine ⟨hquiet.extend, hquiet.linked, hquiet.phase,
      Nat.le_trans hquiet.length_le (Nat.le_succ _), fun j hj => .inl (hquiet.holds_iff.mp hj), ?_,
      fun p o hp => .inl ((hquiet.pending p o hp).elim id False.elim), hquiet.keeps,
      fun _ _ h => absurd hknown h.2.1⟩
    rintro j rfl
    exact hquiet.extend.holds hknown
  · obtain ⟨objects, hobjects⟩ := Pointers.exists_getSet ha
    have hadd := change_addEdge hquiet.linked ha hb
    have hmem : ∀ o, o ∈ objects.toList ↔ state.Holds (.pointsTo source o) := by
      intro o
      rw [← hquiet.holds_iff]
      simp [Holds, Pointers.setOf, Pointers.find?_eq_some_iff.mpr ha, hobjects]
    have hnew : ¬ state.Holds (.flows source target) := fun h => hedge (hflow.mpr h)
    simp only [hedge, Pointers.getSet, Handle.lookup_eq_ok_iff.mpr hobjects, ok_bind]
    refine ⟨_, rfl, ?_⟩
    split
    next hempty =>
      refine (hadd.after_quiet hquiet).congr (fun _ => Iff.rfl) ?_ (Nat.zero_le _)
      intro p o
      have hnone : objects.toList = [] := by
        simpa [SortedSet.isEmpty, SortedSet.toList] using hempty
      simp [← hmem, hnone]
    · have hpush := change_push hadd.linked b hb objects
      refine ((hadd.trans hpush).after_quiet hquiet).congr (by simp) ?_ (by simp)
      intro p o
      simp [hmem, hnew]

/-- Noting a reachable method. -/
theorem change_addReachable (hlinked : state.Linked) (method : CsMethod) :
    Change state { state with calls := state.calls.addReachable method }
      (fun j => j = .reachable method.context method.method) (fun _ _ => False) 0 := by
  refine ⟨{ Extends.refl state with reachable := Interner.extends_insert _ _ },
    ⟨hlinked.entry, hlinked.edge⟩, rfl, Nat.le_refl _, ?_, ?_, fun _ _ => .inl, fun _ _ h => h,
    fun _ _ h => h.elim⟩
  · intro j hj
    cases j with
    | reachable c m =>
      rw [holds_reachable_iff] at hj
      rcases Interner.mem_insert_iff.mp hj with hold | rfl
      · exact .inl (holds_reachable_iff.mpr hold)
      · exact .inr rfl
    | pointsTo p o => exact .inl hj
    | flows p q => exact .inl hj
    | calls kind c site d m => exact .inl hj
  · rintro j rfl
    exact holds_reachable_iff.mpr (Interner.mem_insert_self _ _)

/-- Noting a call, unless one between the same ends is known. -/
theorem change_addCall (hlinked : state.Linked) {site : CsSite} {callee : CsMethod}
    (hnew : ¬ state.calls.hasEdge site callee = true) (kind : CallKind) :
    Change state { state with calls := state.calls.addEdge ⟨kind, site, callee⟩ }
      (fun j => j = .calls kind site.context site.site callee.context callee.method)
      (fun _ _ => False) 0 := by
  have hextend : state.Extends
      { state with calls := state.calls.addEdge ⟨kind, site, callee⟩ } :=
    { Extends.refl state with
      reachable := by
        rw [CallGraph.reachable_addEdge]
        exact .refl _
      calls := by
        rw [CallGraph.edges_addEdge]
        exact Interner.extends_insert _ _ }
  refine ⟨hextend, ⟨hlinked.entry, hlinked.edge⟩, rfl, Nat.le_refl _, ?_, ?_, fun _ _ => .inl,
    fun _ _ h => h, fun _ _ h => h.elim⟩
  · intro j hj
    cases j with
    | reachable c m =>
      rw [holds_reachable_iff, CallGraph.reachable_addEdge] at hj
      exact .inl (holds_reachable_iff.mpr hj)
    | pointsTo p o => exact .inl hj
    | flows p q => exact .inl hj
    | calls kind' c s d m =>
      rw [holds_calls_iff, CallGraph.edges_addEdge] at hj
      rcases Interner.mem_insert_cases hj with hold | heq
      · exact .inl (holds_calls_iff.mpr hold)
      · cases heq
        exact .inr rfl
  · rintro j rfl
    rw [holds_calls_iff, CallGraph.edges_addEdge]
    simp [Interner.items_insert, CallGraph.contains_edges, hnew]

end State

end ObjectFlow.PointsTo
