import Mathlib.Logic.Relation
import ObjectFlow.Proofs.PointsTo.Termination

/-!
# The state of a run only grows

A step may make a whole tree of methods reachable and touch every table.  Whatever it does, it
only appends to the tables, so that a handle keeps its meaning, and it takes nothing away from
what pointers point to or from the flow graph.  A step that finds nothing to do ends the run,
and no step after it changes anything.
-/

namespace ObjectFlow

/-- A table that continues another one lists its values first. -/
theorem Interner.Extends.toList_isPrefix {α : Type} [Key α] {old new : Interner α}
    (h : old.Extends new) : old.toList <+: new.toList := by
  rw [List.prefix_iff_getElem?]
  intro number hlt
  have hlt' : number < old.items.size := by simpa [toList] using hlt
  have hitem := h number _ (Array.getElem?_eq_getElem hlt')
  simpa [toList] using hitem

namespace PointsTo

namespace State

variable {program : Program} {policy : Policy} {state next final later old new : State}
  {turn : Iteration.Turn State}

/-- All that `old` holds stands in its place in `new`. -/
structure Grows (old new : State) : Prop where
  pointers : old.pointers.names.toList <+: new.pointers.names.toList
  csObjects : old.csObjects.toList <+: new.csObjects.toList
  objects : old.heap.objects.toList <+: new.heap.objects.toList
  contexts : old.contexts.table.toList <+: new.contexts.table.toList
  reachable : old.calls.reachable.toList <+: new.calls.reachable.toList
  calls : old.calls.edges.toList <+: new.calls.edges.toList
  sets : ∀ (id : PointerId) (set : PointsToSet), old.pointers.getSet id = .ok set →
    ∃ set', new.pointers.getSet id = .ok set' ∧ ∀ object ∈ set.toList, object ∈ set'.toList
  flow : ∀ source target : PointerId, old.flow.hasEdge source target = true →
    new.flow.hasEdge source target = true

/-- What a handle points to is what its place points to. -/
theorem holds_pointsTo_iff_of_getSet {id : PointerId} {set : PointsToSet} {place : Pointer}
    (hname : state.pointers.names.items[id.index]? = some place)
    (hset : state.pointers.getSet id = .ok set) {object : CsObjId} :
    state.Holds (.pointsTo place object) ↔ object ∈ set.toList := by
  have hentry := Handle.lookup_eq_ok_iff.mp hset
  simp [Holds, Pointers.setOf, Pointers.find?_eq_some_iff.mpr hname, hentry]

theorem Extends.grows (h : old.Extends new) : old.Grows new where
  pointers := h.pointers.toList_isPrefix
  csObjects := h.csObjects.toList_isPrefix
  objects := h.heap.toList_isPrefix
  contexts := h.contexts.toList_isPrefix
  reachable := h.reachable.toList_isPrefix
  calls := h.calls.toList_isPrefix
  sets id set hset := by
    -- A handle with a set has a name, and keeps it.
    have hlt : id.index < old.pointers.names.size := by
      rw [← old.pointers.size_sets]
      exact (Array.getElem?_eq_some_iff.mp (Handle.lookup_eq_ok_iff.mp hset)).1
    obtain ⟨place, hname⟩ := Interner.exists_getElem?_of_lt hlt
    have hname' := h.pointers _ _ hname
    obtain ⟨set', hentry⟩ := Pointers.exists_getSet hname'
    have hset' : new.pointers.getSet id = .ok set' := Handle.lookup_eq_ok_iff.mpr hentry
    refine ⟨set', hset', fun object hobject => ?_⟩
    apply (holds_pointsTo_iff_of_getSet hname' hset').mp
    apply h.sets
    exact (holds_pointsTo_iff_of_getSet hname hset).mpr hobject
  flow source target hedge := by
    rw [FlowGraph.hasEdge, Interner.contains_iff] at hedge ⊢
    exact h.flow.mem hedge

/-- A run that did nothing yet knows the empty context only. -/
theorem extends_initial (state : State) : Extends {} state where
  heap number obj h := by simp at h
  contexts number parts h := by
    have htable : ({} : State).contexts.table.items = #[[]] := rfl
    rw [htable, Array.getElem?_singleton] at h
    split at h
    · next hfirst =>
      cases h
      rw [hfirst]
      exact state.contexts.root_eq
    · cases h
  csObjects number object h := by simp at h
  pointers number place h := by simp at h
  sets place object h := absurd h (@not_holds_start .empty rfl rfl _)
  flow number edge h := by simp at h
  reachable number method h := by simp at h
  calls number edge h := by simp at h

/-- A step continues the tables of a run. -/
theorem Steady.extends_step (h : state.Steady program policy)
    (hstep : state.step program policy = .ok turn) : state.Extends turn.state := by
  unfold Steady at h
  cases hphase : state.phase with
  | starting =>
    rw [hphase] at h
    subst h
    exact extends_initial _
  | running =>
    rw [hphase] at h
    obtain ⟨hinv, -⟩ := h
    cases hpop : state.worklist.pop? with
    | none =>
      have hend : state.step program policy = .ok (.done { state with phase := .done }) := by
        simp [step, hphase, hpop]
      rw [hstep] at hend
      cases hend
      exact { Extends.refl state with }
    | some entry =>
      obtain ⟨⟨id, objects⟩, rest⟩ := entry
      obtain ⟨place, fresh, targets, pointers, worklist, tasks, hpropagate, htaken, htasks, -⟩ :=
        exists_propagate hinv hpop
      have hinv' := hinv.take htaken
      obtain ⟨new, hperform, -, hcontinues, -⟩ :=
        exists_performAll hinv' (htaken.weigh_le hinv' htasks)
      have hmore := step_of_pop hphase hpop hpropagate hperform
      rw [hstep] at hmore
      cases hmore
      exact { htaken.extend.trans hcontinues.extend with }
  | done =>
    have hend : state.step program policy = .ok (.done state) := by simp [step, hphase]
    rw [hstep] at hend
    cases hend
    exact .refl state

/-- The state after one more step. -/
def Moves (program : Program) (policy : Policy) (state next : State) : Prop :=
  ∃ turn, state.step program policy = .ok turn ∧ turn.state = next

theorem Reaches.moves (h : Reaches program policy state)
    (hmoves : Moves program policy state next) : Reaches program policy next := by
  obtain ⟨turn, hstep, rfl⟩ := hmoves
  exact h.step hstep

/-- However many steps follow, the tables of a run are continued. -/
theorem Reaches.extends_later (h : Reaches program policy state)
    (hlater : Relation.ReflTransGen (Moves program policy) state later) : state.Extends later := by
  induction hlater using Relation.ReflTransGen.head_induction_on with
  | refl => exact .refl later
  | head hmoves _ ih =>
    have hnext := ih (h.moves hmoves)
    obtain ⟨turn, hstep, rfl⟩ := hmoves
    exact (h.steady.extends_step hstep).trans hnext

/-- The phase of a run is over when a step says so. -/
theorem phase_of_step_done (hstep : state.step program policy = .ok (.done final)) :
    final.phase = .done := by
  unfold step at hstep
  split at hstep
  · obtain ⟨started, -, hmore⟩ := bind_eq_ok_iff.mp hstep
    cases hmore
  · split at hstep
    · cases hstep
      rfl
    · obtain ⟨⟨taken, tasks⟩, -, hrest⟩ := bind_eq_ok_iff.mp hstep
      obtain ⟨performed, -, hmore⟩ := bind_eq_ok_iff.mp hrest
      cases hmore
  · next hphase =>
    cases hstep
    exact hphase

/-- A run that is over stays as it is. -/
theorem eq_of_later_of_done (hdone : final.phase = .done)
    (hlater : Relation.ReflTransGen (Moves program policy) final later) : later = final := by
  induction hlater with
  | refl => rfl
  | tail _ hmoves ih =>
    subst ih
    obtain ⟨turn, hstep, rfl⟩ := hmoves
    rw [step, hdone] at hstep
    cases hstep
    rfl

end State

open State (Moves)

/-- The state of a run only grows.  Every step succeeds and leaves what was there in its place,
and so does any number of steps.  Once a step says that the run is over, it is: the worklist is
empty, and no later step changes anything. -/
theorem state_grows {program : Program} {policy : Policy} {state : State}
    (h : State.Reaches program policy state) :
    (∃ turn, state.step program policy = .ok turn ∧ state.Grows turn.state) ∧
    (∀ later, Relation.ReflTransGen (Moves program policy) state later → state.Grows later) ∧
    ∀ final, state.step program policy = .ok (.done final) →
      final.phase = .done ∧ final.worklist.toList = [] ∧
        ∀ later, Relation.ReflTransGen (Moves program policy) final later → later = final := by
  refine ⟨?_, fun later hlater => (h.extends_later hlater).grows, fun final hstep => ?_⟩
  · obtain ⟨turn, hstep⟩ := h.exists_step
    exact ⟨turn, hstep, (h.steady.extends_step hstep).grows⟩
  · have hdone := State.phase_of_step_done hstep
    have hfinal : State.Reaches program policy final := h.step hstep
    exact ⟨hdone, (hfinal.finished hdone).worklist,
      fun later hlater => State.eq_of_later_of_done hdone hlater⟩

/-- The start of the run on `knotProgram` leaves three entries on the worklist.  What it has
found by then stays, and at its end the run stays as it is. -/
theorem state_grows_knot :
    (∃ first, State.step knotProgram ⟨.callSite 2, 1⟩ {} = .ok (.more first) ∧
      first.worklist.toList.length = 3 ∧ first.pointers.names.size = 6 ∧
      ∃ turn, first.step knotProgram ⟨.callSite 2, 1⟩ = .ok turn ∧ first.Grows turn.state) ∧
    ∃ final, State.Reaches knotProgram ⟨.callSite 2, 1⟩ final ∧
      final.step knotProgram ⟨.callSite 2, 1⟩ = .ok (.done final) ∧
      ∀ later, Relation.ReflTransGen (Moves knotProgram ⟨.callSite 2, 1⟩) final later →
        later = final := by
  constructor
  · have hfirst : (match State.step knotProgram ⟨.callSite 2, 1⟩ {} with
        | .ok (.more first) => some (first.worklist.toList.length, first.pointers.names.size)
        | _ => none) = some (3, 6) := by
      decide +kernel
    split at hfirst
    · next first hstep =>
      simp only [Option.some.injEq, Prod.mk.injEq] at hfirst
      have hreaches : State.Reaches knotProgram ⟨.callSite 2, 1⟩ first := .step .initial hstep
      exact ⟨first, hstep, hfirst.1, hfirst.2, (state_grows hreaches).1⟩
    · cases hfirst
  · obtain ⟨final, -, hreaches, hdone⟩ := State.exists_solve knotProgram ⟨.callSite 2, 1⟩
    have hstep : final.step knotProgram ⟨.callSite 2, 1⟩ = .ok (.done final) := by
      simp [State.step, hdone]
    exact ⟨final, hreaches, hstep, ((state_grows hreaches).2.2 final hstep).2.2⟩

end PointsTo

end ObjectFlow
