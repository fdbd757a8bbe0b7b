import ObjectFlow.Proofs.PointsTo.Soundness

/-!
# The answers of a result fit together

A result can be asked about the same things in several ways: under a context, or for all contexts
together; by a variable, or by a pair of variables; by a call site, or through the call graph
without contexts.  These questions are answered from different tables, and the answers agree.
`Result.Agrees` says how.
-/

namespace ObjectFlow

/-- The same members in ascending order, each once. -/
def SortedForm {α : Type} [LT α] (sorted members : List α) : Prop :=
  sorted.Pairwise (· < ·) ∧ ∀ a, a ∈ sorted ↔ a ∈ members

theorem sortedForm_ofList {kind : Kind} {members others : List (Handle kind)}
    (h : ∀ a, a ∈ (SortedSet.ofList members).toList ↔ a ∈ others) :
    SortedForm (SortedSet.ofList members).toList others :=
  ⟨SortedSet.ascending_ofList members, h⟩

namespace PointsTo

namespace Result

variable {result : Result} {v : VarId} {object : CsObjId} {context : ContextId}

/-- The answers of a result fit together. -/
structure Agrees (result : Result) : Prop where
  /-- A call without contexts is a call under some contexts. -/
  calls : ∀ site callee, (site, callee) ∈ result.callGraph.edges.toList.map CallEdge.ends ↔
    ∃ context context' : ContextId, ((⟨context, site⟩, ⟨context', callee⟩) : CsSite × CsMethod) ∈
      result.state.calls.edges.toList.map CallEdge.ends
  calls_nodup : (result.callGraph.edges.toList.map CallEdge.ends).Nodup
  reachable : SortedForm result.reachableMethods result.callGraph.reachable.toList
  reachable_nodup : result.callGraph.reachable.toList.Nodup
  callees : ∀ site, SortedForm (result.calleesOf site) (result.callGraph.calleesOf site)
  contexts_nodup : ∀ v, (result.contextsOf v).Nodup
  /-- All objects of a variable are those that it has under the contexts where it was seen. -/
  merged : ∀ v, SortedForm (result.mergedPointsTo v).toList
    ((result.contextsOf v).flatMap fun context => (result.csPointsTo context v).toList)
  /-- The abstract objects of a variable are those of all its objects. -/
  abstracted : ∀ v, ∃ objects abstractObjects, result.pointsTo v = .ok objects ∧
    ((result.mergedPointsTo v).toList.mapM fun object =>
      return (← object.lookup result.state.csObjects.items).object) = .ok abstractObjects ∧
    SortedForm objects abstractObjects
  aliases : ∀ a b, result.mayAlias a b = true ↔ ∃ context context' object,
    object ∈ (result.csPointsTo context a).toList ∧ object ∈ (result.csPointsTo context' b).toList
  /-- Variables that may alias have a common abstract object. -/
  common : ∀ a b, result.mayAlias a b = true → ∃ objects objects' obj,
    result.pointsTo a = .ok objects ∧ result.pointsTo b = .ok objects' ∧ obj ∈ objects ∧
      obj ∈ objects'

section Variables

/-- The context of a pointer of the variable. -/
def contextAt? (v : VarId) : Pointer → Option ContextId
  | .var context w => if w = v then some context else none
  | _ => none

theorem contextAt?_eq_some_iff {place : Pointer} :
    contextAt? v place = some context ↔ place = .var context v := by
  cases place with
  | var context' w => simp [contextAt?, and_comm]
  | _ => simp [contextAt?]

theorem contextsOf_eq (result : Result) (v : VarId) :
    result.contextsOf v = result.state.pointers.names.toList.filterMap (contextAt? v) := by
  have hlength : result.state.pointers.names.toList.length ≤
      result.state.pointers.sets.toList.length := by
    simpa [Interner.toList, Interner.size] using result.state.pointers.size_sets.ge
  rw [← List.map_fst_zip hlength, List.filterMap_map, contextsOf, pointersOf, List.map_filterMap]
  refine List.filterMap_congr ?_
  rintro ⟨place, set⟩ -
  cases place with
  | var context w =>
    by_cases hw : w = v
    · simp [contextAt?, hw]
    · simp [contextAt?, hw]
  | _ => rfl

/-- A variable has one pointer under each context. -/
theorem nodup_contextsOf (result : Result) (v : VarId) : (result.contextsOf v).Nodup := by
  rw [contextsOf_eq]
  refine List.Nodup.filterMap ?_ result.state.pointers.names.nodup_toList
  intro place place' context h h'
  rw [contextAt?_eq_some_iff.mp h, contextAt?_eq_some_iff.mp h']

theorem mem_contextsOf_of_mem (h : object ∈ (result.csPointsTo context v).toList) :
    context ∈ result.contextsOf v := by
  obtain ⟨id, set, hname, -⟩ := Pointers.mem_setOf_iff.mp h
  rw [contextsOf_eq, List.mem_filterMap]
  refine ⟨.var context v, ?_, contextAt?_eq_some_iff.mpr rfl⟩
  simpa [Interner.toList] using Array.mem_of_getElem? hname

/-- The sets of all pointers of a variable, taken together. -/
theorem mem_foldl_union {rows : List (ContextId × PointsToSet)} {set : PointsToSet} :
    object ∈ (rows.foldl (fun merged row => merged.union row.2) set).toList ↔
      object ∈ set.toList ∨ ∃ row ∈ rows, object ∈ row.2.toList := by
  induction rows generalizing set with
  | nil => simp
  | cons row rows ih => simp [ih, SortedSet.mem_union, or_assoc]

theorem ascending_foldl_union {rows : List (ContextId × PointsToSet)} {set : PointsToSet}
    (hset : set.Ascending) (hrows : ∀ row ∈ rows, row.2.Ascending) :
    (rows.foldl (fun merged row => merged.union row.2) set).Ascending := by
  induction rows generalizing set with
  | nil => exact hset
  | cons row rows ih =>
    exact ih (hset.union (hrows row List.mem_cons_self))
      fun other hother => hrows other (List.mem_cons_of_mem _ hother)

/-- What a variable points to under some context. -/
theorem mem_mergedPointsTo_iff :
    object ∈ (result.mergedPointsTo v).toList ↔
      ∃ context, object ∈ (result.csPointsTo context v).toList := by
  rw [mergedPointsTo, mem_foldl_union]
  have hobjects : object ∈ ((result.pointersOf v).flatMap fun row => row.2.toList) ↔
      ∃ context, object ∈ (result.csPointsTo context v).toList := mem_objectsOf_iff
  rw [← hobjects, List.mem_flatMap]
  simp [SortedSet.toList]

end Variables

variable {program : Program} {policy : Policy}

/-- The objects of a variable are in ascending order. -/
theorem ascending_mergedPointsTo (h : State.Reaches program policy result.state) (v : VarId) :
    (result.mergedPointsTo v).Ascending := by
  obtain ⟨stack, hinv⟩ := h.exists_invariant
  refine ascending_foldl_union SortedSet.ascending_empty ?_
  rintro ⟨context, set⟩ hrow
  obtain ⟨number, -, hset⟩ := Pointers.mem_toList_iff.mp (mem_pointersOf_iff.mp hrow)
  exact hinv.orderly.sets set (Array.mem_of_getElem? hset)

theorem mayAlias_iff (h : State.Reaches program policy result.state) {a b : VarId} :
    result.mayAlias a b = true ↔ ∃ context context' object,
      object ∈ (result.csPointsTo context a).toList ∧
        object ∈ (result.csPointsTo context' b).toList := by
  rw [mayAlias, SortedSet.intersects_iff (ascending_mergedPointsTo h a)
    (ascending_mergedPointsTo h b)]
  simp only [mem_mergedPointsTo_iff]
  constructor
  · rintro ⟨object, ⟨context, ha⟩, context', hb⟩
    exact ⟨context, context', object, ha, hb⟩
  · rintro ⟨context, context', object, ha, hb⟩
    exact ⟨object, ⟨context, ha⟩, context', hb⟩

theorem pairwise_of_pointsTo {objects : List ObjId} (h : result.pointsTo v = .ok objects) :
    objects.Pairwise (· < ·) := by
  obtain ⟨found, -, hpure⟩ := bind_eq_ok_iff.mp h
  cases hpure
  exact SortedSet.ascending_ofList found

/-- The abstract objects of a variable are those of its objects, in ascending order. -/
theorem exists_abstracted (h : State.Reaches program policy result.state) (v : VarId) :
    ∃ objects abstractObjects, result.pointsTo v = .ok objects ∧
      ((result.mergedPointsTo v).toList.mapM fun object =>
        return (← object.lookup result.state.csObjects.items).object) = .ok abstractObjects ∧
      SortedForm objects abstractObjects := by
  obtain ⟨objects, hobjects, hmem⟩ := exists_pointsTo h v
  have hlookup : ∀ id ∈ (result.mergedPointsTo v).toList, ∃ obj,
      (do return (← id.lookup result.state.csObjects.items).object) =
        (Except.ok obj : Except Fault ObjId) := by
    intro id hid
    obtain ⟨context, hpoints⟩ := mem_mergedPointsTo_iff.mp hid
    have hholds : result.state.Holds (.pointsTo (.var context v) id) := hpoints
    exact exists_lookup_object h hholds
  obtain ⟨abstractObjects, hmap⟩ := exists_mapM_ok hlookup
  refine ⟨objects, abstractObjects, hobjects, hmap, pairwise_of_pointsTo hobjects, fun obj => ?_⟩
  rw [hmem, mem_mapM_iff hmap]
  simp only [mem_mergedPointsTo_iff, lookup_object_eq_ok_iff]
  constructor
  · rintro ⟨context, id, object, hpoints, hobject⟩
    exact ⟨id, ⟨context, hpoints⟩, object, hobject⟩
  · rintro ⟨id, ⟨context, hpoints⟩, object, hobject⟩
    exact ⟨context, id, object, hpoints, hobject⟩

theorem exists_common_of_mayAlias (h : State.Reaches program policy result.state) {a b : VarId}
    (halias : result.mayAlias a b = true) : ∃ objects objects' obj,
      result.pointsTo a = .ok objects ∧ result.pointsTo b = .ok objects' ∧ obj ∈ objects ∧
        obj ∈ objects' := by
  obtain ⟨context, context', id, ha, hb⟩ := (mayAlias_iff h).mp halias
  have hpoints : result.state.Holds (.pointsTo (.var context a) id) := ha
  obtain ⟨obj, hlookup⟩ := exists_lookup_object h hpoints
  obtain ⟨object, hobject⟩ := lookup_object_eq_ok_iff.mp hlookup
  obtain ⟨objects, hobjects, hmem⟩ := exists_pointsTo h a
  obtain ⟨objects', hobjects', hmem'⟩ := exists_pointsTo h b
  exact ⟨objects, objects', obj, hobjects, hobjects',
    (hmem obj).mpr ⟨context, id, object, ha, hobject⟩,
    (hmem' obj).mpr ⟨context', id, object, hb, hobject⟩⟩

/-- Entry methods are reachable under the empty context, so that they make no difference to the
call graph without contexts. -/
theorem Complete.reachableMethods_agree (h : result.Complete program policy)
    {method : MethodId} :
    method ∈ result.reachableMethods ↔ method ∈ result.callGraph.reachable.toList := by
  rw [mem_reachable_callGraph_iff, ← mem_reachableMethods_iff, h.entries]
  exact (or_iff_right_of_imp fun hentry => h.mem_reachableMethods (.entry hentry)).symm

/-- The answers of every finished run fit together. -/
theorem Complete.agrees (h : result.Complete program policy) : result.Agrees where
  calls site callee := by
    rw [← CallGraph.mem_calleesOf_iff_mem_ends, mem_calleesOf_callGraph_iff, mem_calleesOf_iff]
    simp only [List.mem_map, CallEdge.ends, State.Holds]
    constructor
    · rintro ⟨kind, context, context', hedge⟩
      exact ⟨context, context', _, hedge, rfl⟩
    · rintro ⟨context, context', ⟨kind, site', callee'⟩, hedge, hends⟩
      cases hends
      exact ⟨kind, context, context', hedge⟩
  calls_nodup := result.callGraph.nodup_ends
  reachable := sortedForm_ofList fun _ => h.reachableMethods_agree
  reachable_nodup := result.callGraph.reachable.nodup_toList
  callees _ := sortedForm_ofList fun _ => mem_calleesOf_callGraph_iff.symm
  contexts_nodup := result.nodup_contextsOf
  merged v := by
    refine ⟨ascending_mergedPointsTo h.reaches v, fun object => ?_⟩
    rw [mem_mergedPointsTo_iff, List.mem_flatMap]
    exact exists_congr fun context => (and_iff_right_of_imp mem_contextsOf_of_mem).symm
  abstracted := exists_abstracted h.reaches
  aliases _ _ := mayAlias_iff h.reaches
  common _ _ := exists_common_of_mayAlias h.reaches

end Result

/-- With settings that pass their check, the analysis gives a result whose answers fit
together. -/
theorem run_agrees (program : Program) (config : Config.PointsTo)
    (hvalid : config.validate = .ok ()) :
    ∃ result, run program config = .ok result ∧ result.Agrees := by
  obtain ⟨result, hrun, hcomplete⟩ := exists_run program hvalid
  exact ⟨result, hrun, hcomplete.agrees⟩

/-- The answers on `boxProgram` fit together, with one receiver in every context. -/
theorem run_agrees_box : Config.PointsTo.standard.validate = .ok () ∧
    ∃ result, run boxProgram .standard = .ok result ∧ result.Agrees :=
  ⟨by decide, run_agrees boxProgram .standard (by decide)⟩

end PointsTo

end ObjectFlow
