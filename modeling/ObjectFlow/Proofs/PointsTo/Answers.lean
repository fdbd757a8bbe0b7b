import ObjectFlow.PointsTo.Result
import ObjectFlow.Proofs.PointsTo.LeastModel

/-!
# Answers of a finished run

What the questions to a result say in terms of the tables of its run: the objects of a
variable are those that it points to under some context, and the call graph without
contexts has the methods and the calls that are recorded under some context.
-/

namespace ObjectFlow.PointsTo

theorem Pointers.mem_toList_iff {pointers : Pointers} {place : Pointer} {set : PointsToSet} :
    (place, set) ∈ pointers.toList ↔ ∃ number : Nat,
      pointers.names.items[number]? = some place ∧ pointers.sets[number]? = some set := by
  simp only [toList, Interner.toList, List.mem_iff_getElem?, List.getElem?_zip_eq_some,
    Array.getElem?_toList]

namespace Result

variable {result : Result}

theorem mem_pointersOf_iff {v : VarId} {context : ContextId} {set : PointsToSet} :
    (context, set) ∈ result.pointersOf v ↔
      (Place.var context v, set) ∈ result.state.pointers.toList := by
  simp only [pointersOf, List.mem_filterMap, Prod.exists]
  constructor
  · rintro ⟨place, set', hmem, hsome⟩
    split at hsome
    · next context' w =>
      split at hsome
      · next hw =>
        cases hsome
        exact hw ▸ hmem
      · cases hsome
    · cases hsome
  · intro hmem
    exact ⟨_, _, hmem, by simp⟩

/-- What a variable points to under some context. -/
theorem mem_objectsOf_iff {v : VarId} {object : CsObjId} :
    object ∈ ((result.pointersOf v).flatMap fun (_, set) => set.toList) ↔
      ∃ context, result.state.Holds (.pointsTo (.var context v) object) := by
  simp only [List.mem_flatMap, Prod.exists, mem_pointersOf_iff, Pointers.mem_toList_iff,
    State.Holds, Pointers.mem_setOf_iff]
  constructor
  · rintro ⟨context, set, ⟨number, hname, hset⟩, hobject⟩
    exact ⟨context, ⟨number⟩, set, hname, hset, hobject⟩
  · rintro ⟨context, ⟨number⟩, set, hname, hset, hobject⟩
    exact ⟨context, set, ⟨number, hname, hset⟩, hobject⟩

theorem mem_reachableMethods_iff {method : MethodId} :
    method ∈ result.reachableMethods ↔
      ∃ context, result.state.Holds (.reachable context method) := by
  simp only [reachableMethods, SortedSet.mem_ofList, List.mem_map, Interner.toList,
    Array.mem_toList_iff, State.holds_reachable_iff]
  constructor
  · rintro ⟨⟨context, method'⟩, hmem, rfl⟩
    exact ⟨context, hmem⟩
  · rintro ⟨context, hmem⟩
    exact ⟨_, hmem, rfl⟩

theorem mem_calleesOf_iff {site : Site} {callee : MethodId} :
    callee ∈ result.calleesOf site ↔ ∃ kind context selected,
      result.state.Holds (.calls kind context site selected callee) := by
  simp only [calleesOf, SortedSet.mem_ofList, List.mem_filterMap, State.Holds]
  constructor
  · rintro ⟨⟨kind, ⟨context, site'⟩, ⟨selected, callee'⟩⟩, hmem, hsome⟩
    split at hsome
    · next hsite =>
      cases hsome
      cases hsite
      exact ⟨kind, context, selected, hmem⟩
    · cases hsome
  · rintro ⟨kind, context, selected, hmem⟩
    exact ⟨_, hmem, by simp⟩

section CallGraph

/-- The call graph without contexts starts with the entry methods, which are reachable. -/
theorem foldl_addEntry_addReachable (entries : List MethodId) (graph : CallGraph Site MethodId) :
    entries.foldl (fun graph entry => (graph.addEntry entry).addReachable entry) graph =
      { graph with
        entries := entries.foldl (fun table entry => table.insert entry) graph.entries
        reachable := entries.foldl (fun table entry => table.insert entry) graph.reachable } := by
  induction entries generalizing graph with
  | nil => rfl
  | cons entry entries ih => exact ih ((graph.addEntry entry).addReachable entry)

theorem entries_callGraph : result.callGraph.entries =
    result.entries.foldl (fun table entry => table.insert entry) .empty := by
  rw [callGraph, ← Array.foldl_toList, ← Array.foldl_toList, CallGraph.entries_foldl_addEdge,
    CallGraph.foldl_addReachable, foldl_addEntry_addReachable]
  rfl

theorem reachable_callGraph : result.callGraph.reachable =
    result.state.calls.reachable.toList.foldl (fun table method => table.insert method.method)
      (result.entries.foldl (fun table entry => table.insert entry) .empty) := by
  rw [callGraph, ← Array.foldl_toList, ← Array.foldl_toList, CallGraph.reachable_foldl_addEdge,
    CallGraph.foldl_addReachable, foldl_addEntry_addReachable]
  rfl

theorem edges_callGraph : result.callGraph.edges = result.state.calls.edges.toList.foldl
    (fun table edge => table.insert ⟨edge.kind, edge.site.site, edge.callee.method⟩) .empty := by
  rw [callGraph, ← Array.foldl_toList, ← Array.foldl_toList, CallGraph.edges_foldl_addEdge,
    CallGraph.foldl_addReachable, foldl_addEntry_addReachable]
  rfl

theorem mem_entries_callGraph_iff {method : MethodId} :
    method ∈ result.callGraph.entries.toList ↔ method ∈ result.entries := by
  rw [entries_callGraph, Interner.toList, Array.mem_toList_iff, Interner.mem_iff_exists_code,
    Interner.exists_code_foldl_insert_iff]
  simp

theorem mem_reachable_callGraph_iff {method : MethodId} :
    method ∈ result.callGraph.reachable.toList ↔ method ∈ result.entries ∨
      ∃ context, result.state.Holds (.reachable context method) := by
  rw [reachable_callGraph, Interner.toList, Array.mem_toList_iff, Interner.mem_iff_exists_code,
    Interner.exists_code_foldl_insert_iff, Interner.exists_code_foldl_insert_iff]
  simp only [LawfulKey.code_inj, exists_eq_right, State.holds_reachable_iff, Interner.toList,
    Array.mem_toList_iff, Interner.items_empty, Array.not_mem_empty, false_or]
  refine or_congr_right ⟨?_, ?_⟩
  · rintro ⟨⟨context, method'⟩, hmem, rfl⟩
    exact ⟨context, hmem⟩
  · rintro ⟨context, hmem⟩
    exact ⟨_, hmem, rfl⟩

theorem mem_calleesOf_callGraph_iff {site : Site} {callee : MethodId} :
    callee ∈ result.callGraph.calleesOf site ↔ callee ∈ result.calleesOf site := by
  have hends : callee ∈ result.callGraph.calleesOf site ↔
      ∃ edge ∈ result.callGraph.edges.items, code edge = code (site, callee) := by
    rw [CallGraph.mem_calleesOf_iff_mem_ends, List.mem_map]
    simp only [Interner.toList, Array.mem_toList_iff, CallEdge.code_eq, LawfulKey.code_inj]
  rw [hends, edges_callGraph, Interner.exists_code_foldl_insert_iff, mem_calleesOf_iff]
  simp only [State.Holds]
  constructor
  · rintro (⟨edge, hmem, -⟩ | ⟨⟨kind, ⟨context, site'⟩, ⟨selected, callee'⟩⟩, hmem, hcode⟩)
    · simp at hmem
    · have hsame : (site', callee') = (site, callee) := LawfulKey.code_injective hcode
      cases hsame
      exact ⟨kind, context, selected, hmem⟩
  · rintro ⟨kind, context, selected, hmem⟩
    exact .inr ⟨_, hmem, rfl⟩

end CallGraph

variable {program : Program} {policy : Policy}

/-- The abstract object of an object under a context. -/
theorem lookup_object_eq_ok_iff {id : CsObjId} {obj : ObjId} :
    (do return (← id.lookup result.state.csObjects.items).object) =
        (Except.ok obj : Except Fault ObjId) ↔
      ∃ object, result.state.csObjects.items[id.index]? = some object ∧ object.object = obj := by
  simp [bind_eq_ok_iff, Handle.lookup_eq_ok_iff]

/-- What is pointed to has an abstract object. -/
theorem exists_lookup_object (h : State.Reaches program policy result.state) {place : Pointer}
    {id : CsObjId} (hholds : result.state.Holds (.pointsTo place id)) : ∃ obj,
      (do return (← id.lookup result.state.csObjects.items).object) =
        (Except.ok obj : Except Fault ObjId) := by
  obtain ⟨_, hreads, -⟩ := h.justified hholds
  cases hreads with
  | pointsTo _ hobject =>
    obtain ⟨object, obj, hitem, -⟩ := hobject
    exact ⟨object.object, lookup_object_eq_ok_iff.mpr ⟨object, hitem, rfl⟩⟩

/-- The objects of a variable can be told, and are those that it points to under some
context. -/
theorem exists_pointsTo (h : State.Reaches program policy result.state) (v : VarId) :
    ∃ objects, result.pointsTo v = .ok objects ∧ ∀ obj, obj ∈ objects ↔
      ∃ context id object, result.state.Holds (.pointsTo (.var context v) id) ∧
        result.state.csObjects.items[id.index]? = some object ∧ object.object = obj := by
  have hlookup : ∀ id ∈ ((result.pointersOf v).flatMap fun (_, set) => set.toList), ∃ obj,
      (do return (← id.lookup result.state.csObjects.items).object) =
        (Except.ok obj : Except Fault ObjId) := by
    intro id hid
    obtain ⟨context, hholds⟩ := mem_objectsOf_iff.mp hid
    exact exists_lookup_object h hholds
  obtain ⟨objects, hmap⟩ := exists_mapM_ok hlookup
  refine ⟨(SortedSet.ofList objects).toList, ?_, fun obj => ?_⟩
  · rw [pointsTo, hmap]
    rfl
  · rw [SortedSet.mem_ofList, mem_mapM_iff hmap]
    simp only [mem_objectsOf_iff, lookup_object_eq_ok_iff]
    constructor
    · rintro ⟨id, ⟨context, hholds⟩, object, hobject⟩
      exact ⟨context, id, object, hholds, hobject⟩
    · rintro ⟨context, id, object, hholds, hobject⟩
      exact ⟨id, ⟨context, hholds⟩, object, hobject⟩

end Result

end ObjectFlow.PointsTo
