import ObjectFlow.Proofs.PointsTo.Bounds
import ObjectFlow.Proofs.PointsTo.Perform

/-!
# One worklist entry

An entry of the worklist adds objects to a pointer.  Those that are new to it go on along
its edges, and open the accesses and calls that go through it when it is a variable.  The
invariant holds again as soon as the entry is taken: what the entry carried is recorded,
what it asks for is on the worklist or on the stack.
-/

namespace ObjectFlow.PointsTo

theorem FlowGraph.mem_successors_iff {graph : FlowGraph} {source target : PointerId} :
    target ∈ graph.successors source ↔ (source, target) ∈ graph.edges.items := by
  rw [successors, graph.targets_eq]
  simp only [List.mem_filterMap, Interner.toList, Prod.exists, Array.mem_toList_iff,
    Option.ite_none_right_eq_some, Option.some.injEq]
  constructor
  · rintro ⟨a, b, hedge, rfl, rfl⟩
    exact hedge
  · intro hedge
    exact ⟨source, target, hedge, rfl, rfl⟩

theorem FlowGraph.length_successors_le (graph : FlowGraph) (source : PointerId) :
    (graph.successors source).length ≤ graph.edges.size := by
  rw [successors, graph.targets_eq]
  refine (List.length_filterMap_le _ _).trans ?_
  simp [Interner.toList, Interner.size]

namespace Pointers

variable {pointers : Pointers} {id : PointerId} {objects : PointsToSet}

/-- Objects are added to one pointer only. -/
theorem mem_setOf_add {place : Pointer} (hname : pointers.names.items[id.index]? = some place)
    {p : Pointer} {object : CsObjId} :
    object ∈ ((pointers.add id objects).setOf p).toList ↔
      object ∈ (pointers.setOf p).toList ∨ (p = place ∧ object ∈ objects.toList) := by
  rw [mem_setOf_iff, mem_setOf_iff]
  constructor
  · rintro ⟨other, set, hp, hset, hmem⟩
    rw [getElem?_sets_add] at hset
    split at hset
    next heq =>
      obtain ⟨known, hknown, rfl⟩ := Option.map_eq_some_iff.mp hset
      have hp : pointers.names.items[other.index]? = some p := hp
      rcases SortedSet.mem_union.mp hmem with hold | hnew
      · exact .inl ⟨other, known, hp, hknown, hold⟩
      · rw [← heq, hname] at hp
        exact .inr ⟨(Option.some.inj hp).symm, hnew⟩
    · exact .inl ⟨other, set, hp, hset, hmem⟩
  · rintro (⟨other, set, hp, hset, hmem⟩ | ⟨rfl, hnew⟩)
    · by_cases heq : id.index = other.index
      · refine ⟨other, set.union objects, hp, ?_, SortedSet.mem_union.mpr (.inl hmem)⟩
        rw [getElem?_sets_add, if_pos heq, hset, Option.map_some]
      · refine ⟨other, set, hp, ?_, hmem⟩
        rw [getElem?_sets_add, if_neg heq, hset]
    · obtain ⟨set, hset⟩ := exists_getSet hname
      refine ⟨id, set.union objects, hname, ?_, SortedSet.mem_union.mpr (.inr hnew)⟩
      rw [getElem?_sets_add, if_pos rfl, hset, Option.map_some]

end Pointers

namespace State

variable {program : Program} {policy : Policy} {state : State}

/-- Sending objects to several pointers appends one entry for each. -/
theorem exists_foldl_push (state : State) (targets : List PointerId) (objects : PointsToSet) :
    ∃ worklist : Worklist, targets.foldl (fun state target => state.push target objects) state =
        { state with worklist } ∧
      worklist.toList = state.worklist.toList ++ targets.map (·, objects) := by
  induction targets generalizing state with
  | nil => exact ⟨state.worklist, rfl, by simp⟩
  | cons target targets ih =>
    obtain ⟨worklist, hfold, hlist⟩ := ih (state.push target objects)
    exact ⟨worklist, hfold, by rw [hlist, toList_push]; simp⟩

section Taken

variable {id : PointerId} {objects fresh : PointsToSet} {rest worklist : Worklist} {place : Pointer}
  {pointers : Pointers} {targets : List PointerId} {tasks : List Task}

/-- The entry `(id, objects)` for `place` is taken: its `fresh` objects are added to the
place and sent to `targets`, and `tasks` are the accesses that they open. -/
structure Taken (program : Program) (state : State) (id : PointerId) (objects fresh : PointsToSet)
    (rest : Worklist) (place : Pointer) (targets : List PointerId) (pointers : Pointers)
    (worklist : Worklist) (tasks : List Task) : Prop where
  entry : state.worklist.toList = (id, objects) :: rest.toList
  name : state.pointers.names.items[id.index]? = some place
  fresh_iff : ∀ o, o ∈ fresh.toList ↔
    o ∈ objects.toList ∧ ¬ state.Holds (.pointsTo place o)
  ascending : fresh.Ascending
  names : pointers.names = state.pointers.names
  sets_ascending : ∀ set ∈ pointers.sets, set.Ascending
  sets_iff : ∀ p o, o ∈ (pointers.setOf p).toList ↔
    state.Holds (.pointsTo p o) ∨ (p = place ∧ o ∈ fresh.toList)
  sent : worklist.toList = rest.toList ++ targets.map (·, fresh)
  targets_sub : ∀ target ∈ targets, (id, target) ∈ state.flow.edges.items
  targets_all : ∀ o ∈ fresh.toList, ∀ target, (id, target) ∈ state.flow.edges.items →
    target ∈ targets
  tasks_iff : ∀ task, task ∈ tasks ↔ ∃ context base object, place = .var context base ∧
    object ∈ fresh.toList ∧ state.Opens program context base object task

theorem Taken.extend (h : Taken program state id objects fresh rest place targets pointers worklist
    tasks) : state.Extends { state with pointers, worklist } :=
  { Extends.refl state with
    pointers := by rw [h.names]; exact Interner.Extends.refl _
    sets := fun p o hpoints => (h.sets_iff p o).mpr (.inl hpoints) }

/-- What a place pointed to, or was to point to, is not lost. -/
theorem Taken.points (h : Taken program state id objects fresh rest place targets pointers worklist
    tasks) {p : Pointer} {o : CsObjId} (hpoints : state.Points p o) :
    Points { state with pointers, worklist } p o := by
  rcases hpoints with hold | hpending
  · exact .inl ((h.sets_iff p o).mpr (.inl hold))
  · obtain ⟨other, set, hname, hentry, ho⟩ := pending_iff.mp hpending
    rw [h.entry] at hentry
    rcases List.mem_cons.mp hentry with heq | hentry
    · cases heq
      obtain rfl : place = p := Option.some.inj (h.name.symm.trans hname)
      by_cases hknown : state.Holds (.pointsTo place o)
      · exact .inl ((h.sets_iff place o).mpr (.inl hknown))
      · exact .inl ((h.sets_iff place o).mpr (.inr ⟨rfl, (h.fresh_iff o).mpr ⟨ho, hknown⟩⟩))
    · refine .inr (pending_iff.mpr ⟨other, set, ?_, ?_, ho⟩)
      · rw [← hname, ← h.names]
      · exact h.sent ▸ List.mem_append_left _ hentry

theorem Taken.holds (h : Taken program state id objects fresh rest place targets pointers worklist
    tasks) {j : Judgement ContextId CsObjId} (hj : Holds { state with pointers, worklist } j) :
    state.Holds j ∨ ∃ o, j = .pointsTo place o ∧ o ∈ fresh.toList := by
  cases j with
  | reachable c m => exact .inl hj
  | pointsTo p o =>
    rcases (h.sets_iff p o).mp hj with hold | ⟨rfl, ho⟩
    · exact .inl hold
    · exact .inr ⟨o, rfl, ho⟩
  | flows p q =>
    rw [holds_flows_iff] at hj
    obtain ⟨a, b, ha, hb, hedge⟩ := hj
    dsimp only at ha hb
    rw [h.names] at ha hb
    exact .inl (holds_flows_iff.mpr ⟨a, b, ha, hb, hedge⟩)
  | calls kind c site d m => exact .inl hj

/-- What is on its way after an entry is taken was so before, or comes from the entry. -/
theorem Taken.pending (h : Taken program state id objects fresh rest place targets pointers worklist
    tasks) {p : Pointer} {o : CsObjId} (hpending : Pending { state with pointers, worklist } p o) :
    state.Pending p o ∨ (state.Holds (.flows place p) ∧ o ∈ fresh.toList) := by
  obtain ⟨other, set, hname, hentry, ho⟩ := pending_iff.mp hpending
  dsimp only at hname hentry
  rw [h.names] at hname
  rw [h.sent, List.mem_append] at hentry
  rcases hentry with hentry | hentry
  · refine .inl (pending_iff.mpr ⟨other, set, hname, ?_, ho⟩)
    rw [h.entry]
    exact List.mem_cons_of_mem _ hentry
  · obtain ⟨target, htarget, heq⟩ := List.mem_map.mp hentry
    cases heq
    exact .inr ⟨holds_flows_iff.mpr ⟨id, other, h.name, hname, h.targets_sub other htarget⟩, ho⟩

/-- What an entry adds was on its way. -/
theorem Taken.pending_of_fresh (h : Taken program state id objects fresh rest place targets pointers
    worklist tasks) {o : CsObjId} (ho : o ∈ fresh.toList) : state.Pending place o := by
  refine pending_iff.mpr ⟨id, objects, h.name, ?_, ((h.fresh_iff o).mp ho).1⟩
  rw [h.entry]
  exact List.mem_cons_self

theorem Taken.orderly (h : Taken program state id objects fresh rest place targets pointers worklist
    tasks) (horderly : state.Orderly program policy) :
    Orderly program policy { state with pointers, worklist } := by
  refine { horderly with pointers := ?_, sets := h.sets_ascending, entries := ?_,
                         linked := ⟨?_, ?_⟩ }
  · intro p hp
    dsimp only at hp
    rw [h.names] at hp
    exact (horderly.pointers p hp).extend h.extend
  · intro entry hentry
    dsimp only at hentry
    rw [h.sent, List.mem_append] at hentry
    rcases hentry with hentry | hentry
    · refine horderly.entries entry ?_
      rw [h.entry]
      exact List.mem_cons_of_mem _ hentry
    · obtain ⟨target, -, rfl⟩ := List.mem_map.mp hentry
      exact h.ascending
  · intro entry hentry
    dsimp only at hentry ⊢
    rw [h.names]
    rw [h.sent, List.mem_append] at hentry
    rcases hentry with hentry | hentry
    · refine horderly.linked.entry entry ?_
      rw [h.entry]
      exact List.mem_cons_of_mem _ hentry
    · obtain ⟨target, htarget, rfl⟩ := List.mem_map.mp hentry
      exact (horderly.linked.edge _ (h.targets_sub target htarget)).2
  · intro edge hedge
    dsimp only
    rw [h.names]
    exact horderly.linked.edge edge hedge

/-- The receiver of an object that is on its way can be looked up. -/
theorem Invariant.exists_receiver {stack : List Task} (h : state.Invariant program policy stack)
    {p : Pointer} {o : CsObjId} (hpending : state.Pending p o) :
    ∃ answer, state.receiver program o = .ok answer := by
  obtain ⟨named, hreads, -⟩ := h.pending p o hpending
  cases hreads with
  | pointsTo hplace hobject =>
    obtain ⟨receiver, type, _, _, hreceiver, -⟩ := h.orderly.exists_receiver hobject
    exact ⟨(receiver, type), hreceiver⟩

/-- Taking an entry keeps the invariant. -/
theorem Invariant.take (hinv : state.Invariant program policy [])
    (h : Taken program state id objects fresh rest place targets pointers worklist tasks) :
    Invariant program policy { state with pointers, worklist } tasks := by
  have hextend := h.extend
  have hpending : ∀ o ∈ fresh.toList, state.Justified program policy (.pointsTo place o) :=
    fun o ho => hinv.pending place o (h.pending_of_fresh ho)
  have hdue : ∀ j, state.Due [] j → Due { state with pointers, worklist } tasks j := by
    rintro j (hold | hwait)
    · exact .inl (hextend.holds hold)
    · cases j <;> cases hwait
  refine ⟨h.orderly hinv.orderly, ?_, ?_, ?_, ?_⟩
  · intro j hj
    rcases h.holds hj with hold | ⟨o, rfl, ho⟩
    · exact (hinv.justified j hold).extend hextend
    · exact (hpending o ho).extend hextend
  · intro p o hp
    rcases h.pending hp with hold | ⟨hflow, ho⟩
    · exact (hinv.pending p o hold).extend hextend
    · exact (justified_flow (hinv.justified _ hflow) (hpending o ho)).extend hextend
  · intro task htask
    obtain ⟨context, base, object, rfl, ho, hopens⟩ := (h.tasks_iff task).mp htask
    have hpoints := (hpending object ho).extend hextend
    cases hopens with
    | access hstmt hroute hheap => exact ⟨base, _, _, hpoints, hstmt, hroute, hheap⟩
    | dispatch hstmt hbase hreceiver => exact ⟨base, _, hpoints, hstmt, hbase, hreceiver⟩
  · intro j hj
    rcases h.holds hj with hold | ⟨o, rfl, ho⟩
    · by_cases hflow : ∃ source target, j = .flows source target
      · obtain ⟨source, target, rfl⟩ := hflow
        intro o hpoints
        rcases (h.sets_iff source o).mp hpoints with hknown | ⟨rfl, ho⟩
        · exact h.points (hinv.covered _ hold o hknown)
        · obtain ⟨a, b, ha, hb, hedge⟩ := holds_flows_iff.mp hold
          obtain rfl : a = id := Handle.ext (Interner.getElem?_injective ha h.name)
          refine .inr (pending_iff.mpr ⟨b, fresh, ?_, ?_, ho⟩)
          · rw [← hb, ← h.names]
          · dsimp only
            rw [h.sent]
            exact List.mem_append_right _
              (List.mem_map.mpr ⟨b, h.targets_all o ho b hedge, rfl⟩)
      · refine (hinv.covered j hold).mono (fun _ _ => h.points) hdue ?_ ?_
        · rintro task (hmem | hdone)
          · cases hmem
          · exact .inr (hdone.mono hextend (fun _ _ => h.points) hdue)
        · exact fun source target heq => absurd ⟨source, target, heq⟩ hflow
    · intro context base site stmt route hplace hstmt hroute
      obtain ⟨answer, hreceiver⟩ := hinv.exists_receiver (h.pending_of_fresh ho)
      obtain ⟨task, hopens, hserves⟩ := exists_opens hreceiver hstmt hroute
      exact ⟨task, hserves, .inl ((h.tasks_iff task).mpr ⟨context, base, o, hplace, ho, hopens⟩)⟩

end Taken

section Opened

variable {context : ContextId} {base : VarId} {object : CsObjId} {tasks : List Task}

/-- The tasks of an object are those of the statements that go through its variable. -/
theorem mem_openings_iff (h : state.openings program context base object = .ok tasks)
    {task : Task} : task ∈ tasks ↔ state.Opens program context base object task := by
  obtain ⟨⟨receiver, type⟩, hreceiver, hpure⟩ := bind_eq_ok_iff.mp h
  cases hpure
  simp only [List.mem_append, List.mem_map]
  constructor
  · rintro (⟨site, hsite, rfl⟩ | ⟨site, hsite, rfl⟩)
    · have hroute : ∃ route, route ≠ .invoke ∧ site ∈ (program.uses base).along route := by
        rcases hsite with ((hmem | hmem) | hmem) | hmem
        · exact ⟨.loadField, nofun, hmem⟩
        · exact ⟨.storeField, nofun, hmem⟩
        · exact ⟨.loadArray, nofun, hmem⟩
        · exact ⟨.storeArray, nofun, hmem⟩
      obtain ⟨route, hheap, hmem⟩ := hroute
      obtain ⟨stmt, hstmt, hthrough⟩ := Program.mem_uses_along_iff.mp hmem
      exact .access hstmt hthrough hheap
    · have hmem : site ∈ (program.uses base).along .invoke := hsite
      obtain ⟨stmt, hstmt, hthrough⟩ := Program.mem_uses_along_iff.mp hmem
      obtain ⟨call, rfl, hbase⟩ := Stmt.exists_call_of_route hthrough
      exact .dispatch hstmt hbase hreceiver
  · intro hopens
    cases hopens with
    | @access site stmt route hstmt hroute hheap =>
      have hmem := Program.mem_uses_along_iff.mpr ⟨stmt, hstmt, hroute⟩
      refine .inl ⟨site, ?_, rfl⟩
      cases route with
      | loadField => exact .inl (.inl (.inl hmem))
      | storeField => exact .inl (.inl (.inr hmem))
      | loadArray => exact .inl (.inr hmem)
      | storeArray => exact .inr hmem
      | invoke => exact absurd rfl hheap
    | @dispatch site call _ _ hstmt hbase hlookup =>
      rw [hreceiver] at hlookup
      cases hlookup
      have hmem : site ∈ (program.uses base).along .invoke :=
        Program.mem_uses_along_iff.mpr ⟨_, hstmt, by simp [Stmt.route?, hbase]⟩
      exact .inr ⟨site, hmem, rfl⟩

theorem length_openings_le (h : state.openings program context base object = .ok tasks) :
    tasks.length ≤ 5 * program.listing.size := by
  obtain ⟨⟨receiver, type⟩, -, hpure⟩ := bind_eq_ok_iff.mp h
  cases hpure
  have hroute := fun route => program.length_uses_along_le base route
  have hloadFields := hroute .loadField
  have hstoreFields := hroute .storeField
  have hloadArrays := hroute .loadArray
  have hstoreArrays := hroute .storeArray
  have hinvokes := hroute .invoke
  simp only [Uses.along] at *
  simp only [List.length_map, List.length_append]
  omega

/-- Objects whose receivers can be looked up open their tasks. -/
theorem exists_opened {place : Pointer} {fresh : PointsToSet}
    (hreceiver : ∀ o ∈ fresh.toList, ∃ answer, state.receiver program o = .ok answer) :
    ∃ tasks, state.opened program place fresh = .ok tasks ∧
      (∀ task, task ∈ tasks ↔ ∃ context base object, place = .var context base ∧
        object ∈ fresh.toList ∧ state.Opens program context base object task) ∧
      tasks.length ≤ fresh.toList.length * (5 * program.listing.size) := by
  cases place with
  | var context base =>
    have hopenings : ∀ o ∈ fresh.toList, ∃ tasks,
        state.openings program context base o = .ok tasks := by
      intro o ho
      obtain ⟨answer, hanswer⟩ := hreceiver o ho
      exact ⟨_, by rw [openings, hanswer]; rfl⟩
    obtain ⟨lists, hlists⟩ := exists_mapM_ok hopenings
    refine ⟨lists.flatten, by simp [opened, hlists], fun task => ?_, ?_⟩
    · rw [List.mem_flatten]
      constructor
      · rintro ⟨tasks, htasks, hmem⟩
        obtain ⟨o, ho, hopened⟩ := (mem_mapM_iff hlists).mp htasks
        exact ⟨context, base, o, rfl, ho, (mem_openings_iff hopened).mp hmem⟩
      · rintro ⟨_, _, o, heq, ho, hopens⟩
        cases heq
        obtain ⟨tasks, hopened⟩ := hopenings o ho
        exact ⟨tasks, (mem_mapM_iff hlists).mpr ⟨o, ho, hopened⟩,
          (mem_openings_iff hopened).mpr hopens⟩
    · exact length_flatten_mapM_le hlists fun o _ tasks htasks => length_openings_le htasks
  | _ => exact ⟨[], rfl, by simp, Nat.zero_le _⟩

end Opened

/-- The objects of an entry that are new can be told. -/
theorem exists_newObjects (h : state.Orderly program policy) {id : PointerId}
    {objects : PointsToSet} (hmem : (id, objects) ∈ state.worklist.toList) :
    ∃ place fresh, state.pointers.names.items[id.index]? = some place ∧
      state.pointers.newObjects id objects = .ok fresh ∧ fresh.Ascending ∧
      ∀ o, o ∈ fresh.toList ↔ o ∈ objects.toList ∧ ¬ state.Holds (.pointsTo place o) := by
  obtain ⟨place, hname⟩ := Interner.exists_getElem?_of_lt (h.linked.entry _ hmem)
  obtain ⟨set, hset⟩ := Pointers.exists_getSet hname
  have hobjects : objects.Ascending := h.entries _ hmem
  have hsetAscending : set.Ascending := h.sets set (Array.mem_iff_getElem?.mpr ⟨_, hset⟩)
  have hholds : ∀ o, o ∈ set.toList ↔ state.Holds (.pointsTo place o) := by
    intro o
    simp [Holds, Pointers.setOf, Pointers.find?_eq_some_iff.mpr hname, hset]
  refine ⟨place, objects.difference set, hname, ?_, hobjects.difference set, fun o => ?_⟩
  · simp [Pointers.newObjects, Pointers.getSet, Handle.lookup_eq_ok_iff.mpr hset]
  · rw [SortedSet.mem_difference hobjects hsetAscending, hholds]

theorem ascending_of_add {pointers : Pointers} {id : PointerId} {fresh : PointsToSet}
    (h : ∀ set ∈ pointers.sets, set.Ascending) (hfresh : fresh.Ascending) :
    ∀ set ∈ (pointers.add id fresh).sets, set.Ascending := by
  intro set hset
  obtain ⟨n, hn⟩ := Array.mem_iff_getElem?.mp hset
  rw [Pointers.getElem?_sets_add] at hn
  split at hn
  · obtain ⟨known, hknown, rfl⟩ := Option.map_eq_some_iff.mp hn
    exact (h known (Array.mem_iff_getElem?.mpr ⟨n, hknown⟩)).union hfresh
  · exact h set (Array.mem_iff_getElem?.mpr ⟨n, hn⟩)

/-- An entry of the worklist is taken without a fault. -/
theorem exists_propagate (hinv : state.Invariant program policy []) {id : PointerId}
    {objects : PointsToSet} {rest : Worklist}
    (hpop : state.worklist.pop? = some ((id, objects), rest)) :
    ∃ place fresh targets pointers worklist tasks,
      propagate program { state with worklist := rest } id objects =
        .ok ({ state with pointers, worklist }, tasks) ∧
      Taken program state id objects fresh rest place targets pointers worklist tasks ∧
      tasks.length ≤ fresh.toList.length * (5 * program.listing.size) ∧
      targets.length ≤ state.flow.edges.size ∧ (fresh.toList = [] → targets = []) := by
  have hentry := Queue.toList_of_pop? hpop
  have hmem : (id, objects) ∈ state.worklist.toList := by
    rw [hentry]
    exact List.mem_cons_self
  obtain ⟨place, fresh, hname, hnew, hascending, hfresh⟩ := exists_newObjects hinv.orderly hmem
  by_cases hempty : fresh.toList = []
  · have hpropagate : propagate program { state with worklist := rest } id objects =
        .ok ({ state with worklist := rest }, []) := by
      have hisEmpty : fresh.isEmpty = true := by
        simpa [SortedSet.isEmpty, SortedSet.toList] using hempty
      simp [propagate, hnew, hisEmpty]
    refine ⟨place, fresh, [], state.pointers, rest, [], hpropagate, ⟨hentry, hname, hfresh,
      hascending, rfl, hinv.orderly.sets, ?_, by simp, by simp, by simp [hempty], by simp [hempty]⟩,
      by simp, by simp, fun _ => rfl⟩
    intro p o
    simp [hempty, Holds]
  · obtain ⟨worklist, hfold, hsent⟩ := exists_foldl_push
      { state with worklist := rest, pointers := state.pointers.add id fresh }
      (state.flow.successors id) fresh
    -- What is new was on its way, so that its receiver is known.
    have hreceiver : ∀ o ∈ fresh.toList, ∃ answer, state.receiver program o = .ok answer := by
      intro o ho
      refine hinv.exists_receiver (pending_iff.mpr ⟨id, objects, hname, hmem, ?_⟩)
      exact ((hfresh o).mp ho).1
    obtain ⟨tasks, hopened, htasks, hlength⟩ := @exists_opened program state place fresh hreceiver
    have hpropagate : propagate program { state with worklist := rest } id objects =
        .ok ({ state with pointers := state.pointers.add id fresh, worklist }, tasks) := by
      have hisEmpty : fresh.isEmpty = false := by
        simpa [SortedSet.isEmpty, SortedSet.toList] using hempty
      have hget : state.pointers.get id = .ok place := Handle.lookup_eq_ok_iff.mpr hname
      have hsame : opened program
          { state with pointers := state.pointers.add id fresh, worklist } place fresh =
            .ok tasks := by
        rw [← hopened]
        cases place <;> rfl
      simp only [propagate, hnew, ok_bind, hisEmpty, Bool.false_eq_true, if_false, hget, hfold,
        hsame, pure_eq_ok]
    exact ⟨place, fresh, state.flow.successors id, _, worklist, _, hpropagate, ⟨hentry, hname,
      hfresh, hascending, rfl, ascending_of_add hinv.orderly.sets hascending,
      fun _ _ => Pointers.mem_setOf_add hname, hsent,
      fun _ => FlowGraph.mem_successors_iff.mp, fun _ _ _ => FlowGraph.mem_successors_iff.mpr,
      htasks⟩, hlength, FlowGraph.length_successors_le _ _, fun hnone => absurd hnone hempty⟩

end State

end ObjectFlow.PointsTo
