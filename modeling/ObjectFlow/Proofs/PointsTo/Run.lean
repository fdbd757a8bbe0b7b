import Mathlib.Data.Set.Card
import ObjectFlow.Proofs.Iteration
import ObjectFlow.Proofs.PointsTo.Propagate

/-!
# Whole runs

A step of the solver empties its stack of tasks, and a run empties its worklist.  Both
loops keep the invariant and lower a measure that starts below the number of steps that
they are allowed, so that a run always ends, and ends with nothing left to do.
-/

namespace ObjectFlow.PointsTo

open Iteration (Advances settleExcept_final)

namespace State

variable {program : Program} {policy : Policy} {state old new : State} {stack : List Task}

/-- `new` continues `old` without adding to what its places point to. -/
structure Continues (old new : State) : Prop where
  extend : old.Extends new
  phase : new.phase = old.phase
  points : ∀ place object, new.Holds (.pointsTo place object) →
    old.Holds (.pointsTo place object)

theorem Continues.refl (state : State) : state.Continues state :=
  ⟨.refl state, rfl, fun _ _ h => h⟩

theorem Continues.trans {middle : State} (h : old.Continues middle) (h' : middle.Continues new) :
    old.Continues new :=
  ⟨h.extend.trans h'.extend, h'.phase.trans h.phase,
    fun place object hpoints => h.points place object (h'.points place object hpoints)⟩

/-- What is left to do within a step. -/
def budget (program : Program) (policy : Policy) (work : State × List Task) : Nat :=
  weigh work.2 + span program * (2 * bound program policy ^ 2 - work.1.found)

/-- What holds while a step that began with `start` empties its stack. -/
structure Underway (program : Program) (policy : Policy) (start work : State × List Task) :
    Prop where
  invariant : work.1.Invariant program policy work.2
  continues : start.1.Continues work.1
  due : ∀ j, start.1.Due start.2 j → work.1.Due work.2 j
  length : work.1.worklist.toList.length + budget program policy work ≤
    start.1.worklist.toList.length + budget program policy start

section Stack

variable {start : State × List Task} {task : Task} {tasks rest : List Task}
  {added : Judgement ContextId CsObjId → Prop} {offered : Pointer → CsObjId → Prop}

/-- A task lowers the budget. -/
theorem budget_perform_lt (hfound : new.found ≤ 2 * bound program policy ^ 2)
    (hcost : weigh tasks + span program * old.found < task.weight + span program * new.found) :
    budget program policy (new, tasks ++ rest) < budget program policy (old, task :: rest) := by
  have hroom := Nat.mul_le_mul_left (span program) hfound
  simp only [budget, weigh_append, weigh_cons]
  rw [Nat.mul_sub, Nat.mul_sub]
  omega

theorem Underway.perform (h : Underway program policy start (old, task :: rest))
    (hperformed : Performed program policy old task new tasks added offered)
    (hlower : budget program policy (new, tasks ++ rest) <
      budget program policy (old, task :: rest)) :
    Underway program policy start (new, tasks ++ rest) where
  invariant := h.invariant.perform hperformed
  continues := by
    refine h.continues.trans ⟨hperformed.change.extend, hperformed.change.phase, ?_⟩
    intro place object hpoints
    rcases hperformed.change.holds _ hpoints with hold | hadded
    · exact hold
    · exact absurd hadded (hperformed.points place object)
  due j hj := (h.due j hj).perform hperformed.change.extend hperformed.effect
  length := by
    have hlength := h.length
    have hgrowth := hperformed.change.length_le
    dsimp only at hlength ⊢
    omega

/-- Tasks are taken from the stack until none is left. -/
theorem advances_performNext (start : State × List Task) :
    Advances (performNext program policy) (Underway program policy start)
      (fun work => Underway program policy start (work.1, [])) (budget program policy) := by
  rintro ⟨current, tasks⟩ h
  cases tasks with
  | nil => exact .inl ⟨(current, []), rfl, h⟩
  | cons task rest =>
    obtain ⟨next, tasks, added, offered, hperform, hperformed, hcost⟩ := progresses h.invariant
    have hlower := @budget_perform_lt program policy current next task tasks rest
      (h.invariant.perform hperformed).bounded.found hcost
    exact .inr ⟨(next, tasks ++ rest), by simp [performNext, hperform],
      h.perform hperformed hlower, hlower⟩

theorem budget_le (h : state.Invariant program policy stack)
    (hstack : weigh stack ≤ bound program policy ^ 2) :
    budget program policy (state, stack) ≤ bound program policy ^ 4 := by
  have hsize := h.bounded.size
  have hspan : span program ≤ bound program policy := by
    unfold span
    omega
  have hmul := Nat.mul_le_mul hspan (Nat.sub_le (2 * bound program policy ^ 2) state.found)
  unfold budget
  generalize bound program policy = b at *
  generalize span program * (2 * b ^ 2 - state.found) = cost at *
  nlinarith [pow_two b, pow_succ b 2, pow_succ b 3, sq_nonneg b]

/-- The budget of a small stack lies below the number of tasks that a step is allowed. -/
theorem budget_lt_rounds (h : state.Invariant program policy stack)
    (hstack : weigh stack ≤ bound program policy ^ 2) :
    budget program policy (state, stack) + 1 < 2 ^ rounds program policy := by
  have hsize := h.bounded.size
  have hbudget := budget_le h hstack
  rw [two_pow_rounds]
  have hbig : 2 ≤ bound program policy := by omega
  calc budget program policy (state, stack) + 1
      ≤ bound program policy ^ 4 + 1 := Nat.add_le_add_right hbudget 1
    _ < bound program policy ^ 5 := by
      rw [pow_succ]
      have hpos : 2 ≤ bound program policy ^ 4 :=
        hbig.trans (Nat.le_self_pow (by simp) _)
      nlinarith
    _ ≤ bound program policy ^ 16 := Nat.pow_le_pow_right (by omega) (by simp)

/-- Emptying the stack keeps the invariant, and puts no more on the worklist than the
budget allows. -/
theorem exists_performAll (h : state.Invariant program policy stack)
    (hstack : weigh stack ≤ bound program policy ^ 2) :
    ∃ new, performAll program policy state stack = .ok new ∧ new.Invariant program policy [] ∧
      state.Continues new ∧ (∀ j, state.Due stack j → new.Holds j) ∧
      new.worklist.toList.length ≤ state.worklist.toList.length + bound program policy ^ 4 := by
  have hbudget := budget_le h hstack
  obtain ⟨⟨final, tasks⟩, hsettle, hfinal⟩ := settleExcept_final
    (advances_performNext (state, stack)) ⟨h, .refl state, fun _ hj => hj, Nat.le_refl _⟩
    (budget_lt_rounds h hstack)
  refine ⟨final, ?_, hfinal.invariant, hfinal.continues, ?_, ?_⟩
  · simp [performAll, hsettle]
  · intro j hj
    rcases hfinal.due j hj with hholds | hwait
    · exact hholds
    · cases j <;> cases hwait
  · have hlength := hfinal.length
    dsimp only at hlength
    omega

end Stack

/-- Every entry method is reachable under the empty context. -/
def Entered (program : Program) (state : State) : Prop :=
  ∀ entry ∈ program.entries, state.Holds (.reachable Contexts.root entry)

/-- What holds between two steps.  Before its start a run knows nothing. -/
def Steady (program : Program) (policy : Policy) (state : State) : Prop :=
  match state.phase with
  | .starting => state = {}
  | .running => state.Invariant program policy [] ∧ state.Entered program
  | .done => state.Invariant program policy [] ∧ state.Entered program ∧ state.worklist.toList = []

/-- What the places of a run point to. -/
def spread (state : State) : Set (Pointer × CsObjId) :=
  { pair | state.Holds (.pointsTo pair.1 pair.2) }

theorem Invariant.finite_spread (h : state.Invariant program policy stack) :
    state.spread.Finite ∧ state.spread.ncard ≤ bound program policy ^ 2 := by
  have hsub : state.spread ⊆ ((state.pointers.names.toList.toFinset ×ˢ
      handlesBelow .contextObjects state.csObjects.size : Finset (Pointer × CsObjId)) :
        Set (Pointer × CsObjId)) := by
    rintro ⟨place, object⟩ hpoints
    have hpoints : state.Holds (.pointsTo place object) := hpoints
    obtain ⟨named, hreads, -⟩ := h.justified _ hpoints
    obtain ⟨id, set, hname, -⟩ := Pointers.mem_setOf_iff.mp hpoints
    cases hreads with
    | pointsTo hplace hobject =>
      rw [Finset.mem_coe, Finset.mem_product, List.mem_toFinset]
      exact ⟨by simpa [Interner.toList] using Array.mem_iff_getElem?.mpr ⟨_, hname⟩,
        mem_handlesBelow.mpr hobject.index_lt⟩
  refine ⟨(Finset.finite_toSet _).subset hsub, ?_⟩
  refine (Set.ncard_le_ncard hsub (Finset.finite_toSet _)).trans ?_
  rw [Set.ncard_coe_finset, Finset.card_product, pow_two]
  refine Nat.mul_le_mul ?_ ((card_handlesBelow_le _ _).trans h.bounded.csObjects)
  refine (List.toFinset_card_le _).trans ?_
  exact h.bounded.pointers

/-- What is left to do in a run.  Each pair of a place and an object is added once, and
the step that adds it puts a bounded number of entries on the worklist. -/
noncomputable def remaining (program : Program) (policy : Policy) (state : State) : Nat :=
  match state.phase with
  | .starting => bound program policy ^ 8
  | .running => (bound program policy ^ 2 - state.spread.ncard) *
      (bound program policy ^ 5) + state.worklist.toList.length
  | .done => 0

theorem remaining_of_running (h : state.phase = .running) : state.remaining program policy =
    (bound program policy ^ 2 - state.spread.ncard) * (bound program policy ^ 5) +
      state.worklist.toList.length := by
  unfold remaining
  rw [h]

theorem performAll_nil (program : Program) (policy : Policy) (state : State) :
    performAll program policy state [] = .ok state := by
  obtain ⟨rest, hrounds⟩ : ∃ rest, rounds program policy = rest + 1 :=
    Nat.exists_eq_add_one.mpr (by unfold rounds; positivity)
  have hsettle : Iteration.settleExcept (performNext program policy) (rest + 1) (state, []) =
      .ok (state, []) := Iteration.settleExcept_of_done rfl
  simp [performAll, hrounds, hsettle]

/-- The invariant does not depend on how far a run is. -/
theorem Invariant.withPhase (h : state.Invariant program policy stack) (phase : Phase)
    (processed : Nat) : Invariant program policy { state with phase, processed } stack :=
  ⟨{ h.orderly with linked := ⟨h.orderly.linked.entry, h.orderly.linked.edge⟩ }, h.justified,
    h.pending, h.tasks, h.covered⟩

/-- Noting the entry methods changes nothing else. -/
theorem foldl_addEntry (entries : List CsMethod) (calls : CallGraph CsSite CsMethod) :
    (entries.foldl CallGraph.addEntry calls).reachable = calls.reachable ∧
      (entries.foldl CallGraph.addEntry calls).edges = calls.edges := by
  rw [CallGraph.foldl_addEntry]
  exact ⟨rfl, rfl⟩

/-- A run that knows its entry methods only has nothing in its tables. -/
theorem not_holds_start {calls : CallGraph CsSite CsMethod} (hreachable : calls.reachable = .empty)
    (hedges : calls.edges = .empty) (j : Judgement ContextId CsObjId) :
    ¬ Holds { ({} : State) with calls } j := by
  intro hj
  cases j with
  | reachable c m =>
    rw [holds_reachable_iff] at hj
    simp [hreachable] at hj
  | pointsTo p o =>
    obtain ⟨id, set, hname, -⟩ := Pointers.mem_setOf_iff.mp hj
    simp at hname
  | flows p q =>
    obtain ⟨a, b, ha, -⟩ := holds_flows_iff.mp hj
    simp at ha
  | calls kind c site d m =>
    rw [holds_calls_iff] at hj
    simp [hedges] at hj

theorem not_pending_start (calls : CallGraph CsSite CsMethod) (place : Pointer)
    (object : CsObjId) : ¬ Pending { ({} : State) with calls } place object := by
  intro hpending
  obtain ⟨id, objects, hname, -⟩ := pending_iff.mp hpending
  simp at hname

/-- The invariant holds when the entry methods are to be made reachable. -/
theorem invariant_start (program : Program) (policy : Policy)
    {calls : CallGraph CsSite CsMethod} (hreachable : calls.reachable = .empty)
    (hedges : calls.edges = .empty) :
    Invariant program policy { ({} : State) with calls }
      (program.entries.map fun entry => .reach ⟨Contexts.root, entry⟩) := by
  have hnone := not_holds_start hreachable hedges
  have hinitial := orderly_initial program policy
  refine ⟨{ hinitial with linked := ⟨hinitial.linked.entry, hinitial.linked.edge⟩ },
    fun j hj => absurd hj (hnone j), fun p o hp => absurd hp (not_pending_start calls p o), ?_,
    fun j hj => absurd hj (hnone j)⟩
  intro task htask
  obtain ⟨entry, hentry, rfl⟩ := List.mem_map.mp htask
  exact ⟨_, .reachable (readsContext_root _) entry, .entry hentry⟩

theorem weigh_entries_le (program : Program) (policy : Policy) :
    weigh (program.entries.map fun entry => .reach ⟨Contexts.root, entry⟩) ≤
      bound program policy ^ 2 := by
  have hle := weigh_le (program.entries.map fun entry => .reach ⟨Contexts.root, entry⟩)
  have hentries := program.measured.entries
  have hsize := (@invariant_start program policy .empty rfl rfl).bounded.size
  have hsquare : bound program policy ≤ bound program policy ^ 2 :=
    Nat.le_self_pow (by simp) _
  rw [List.length_map] at hle
  omega

/-- The start of a run makes its entry methods reachable. -/
theorem exists_start (program : Program) (policy : Policy) :
    ∃ new, start program policy {} = .ok new ∧ new.phase = .running ∧
      new.Invariant program policy [] ∧ new.Entered program ∧
      new.worklist.toList.length ≤ bound program policy ^ 4 := by
  let entries := program.entries.map fun entry => (⟨Contexts.root, entry⟩ : CsMethod)
  obtain ⟨hreachable, hedges⟩ := foldl_addEntry entries .empty
  have hinv := invariant_start program policy hreachable hedges
  obtain ⟨new, hperform, hnew, hcontinues, hdue, hlength⟩ :=
    exists_performAll hinv (weigh_entries_le program policy)
  refine ⟨{ new with phase := .running }, ?_, rfl, hnew.withPhase _ _, ?_, ?_⟩
  · simp only [start, List.map_map, Function.comp_def] at hperform ⊢
    rw [hperform]
    rfl
  · intro entry hentry
    exact hdue (.reachable Contexts.root entry) (.inr (List.mem_map.mpr ⟨entry, hentry, rfl⟩))
  · simpa [Queue.toList] using hlength

section Taken

variable {id : PointerId} {objects fresh : PointsToSet} {rest worklist : Worklist} {place : Pointer}
  {pointers : Pointers} {targets : List PointerId} {tasks : List Task}

/-- The tasks of an entry are few. -/
theorem Taken.weigh_le (h : Taken program state id objects fresh rest place targets pointers
    worklist tasks) (hinv : Invariant program policy { state with pointers, worklist } tasks)
    (hlength : tasks.length ≤ fresh.toList.length * (5 * program.listing.size)) :
    weigh tasks ≤ bound program policy ^ 2 := by
  have hfresh : fresh.toList.length ≤ state.csObjects.size := by
    refine (Program.length_le_of_forall_mem h.ascending.nodup (fun o ho => ?_)).trans
      (card_handlesBelow_le .contextObjects _)
    have hpoints : Holds { state with pointers, worklist } (.pointsTo place o) :=
      (h.sets_iff place o).mpr (.inr ⟨rfl, ho⟩)
    obtain ⟨named, hreads, -⟩ := hinv.justified _ hpoints
    cases hreads with
    | pointsTo hplace hobject => exact mem_handlesBelow.mpr hobject.index_lt
  have huses := hinv.bounded.uses
  have hmul := Nat.mul_le_mul_right (5 * program.listing.size) hfresh
  have hweigh := PointsTo.weigh_le tasks
  dsimp only at huses
  nlinarith

/-- An entry with a new object adds a pair. -/
theorem Taken.spread_lt (h : Taken program state id objects fresh rest place targets pointers
    worklist tasks) (hinv : Invariant program policy { state with pointers, worklist } tasks)
    (hfresh : fresh.toList ≠ []) :
    state.spread.ncard < (spread { state with pointers, worklist }).ncard := by
  refine Set.ncard_lt_ncard ⟨?_, ?_⟩ hinv.finite_spread.1
  · rintro ⟨p, o⟩ hpoints
    exact (h.sets_iff p o).mpr (.inl hpoints)
  · intro hsub
    obtain ⟨o, ho⟩ := List.exists_mem_of_ne_nil _ hfresh
    have hnew : (place, o) ∈ spread { state with pointers, worklist } :=
      (h.sets_iff place o).mpr (.inr ⟨rfl, ho⟩)
    exact ((h.fresh_iff o).mp ho).2 (hsub hnew)

end Taken

theorem Continues.spread_eq (h : old.Continues new) : new.spread = old.spread :=
  Set.ext fun ⟨place, object⟩ => ⟨h.points place object, h.extend.sets place object⟩

theorem step_of_pop (hphase : state.phase = .running) {id : PointerId} {objects : PointsToSet}
    {rest : Worklist} (hpop : state.worklist.pop? = some ((id, objects), rest)) {taken : State}
    {tasks : List Task}
    (hpropagate : propagate program { state with worklist := rest } id objects =
      .ok (taken, tasks))
    (hperform : performAll program policy taken tasks = .ok new) :
    state.step program policy = .ok (.more { new with processed := new.processed + 1 }) := by
  unfold step
  split
  next hstarting => rw [hphase] at hstarting; cases hstarting
  · rw [hpop]
    dsimp only
    rw [hpropagate, ok_bind, hperform, ok_bind, pure_eq_ok]
  next hdone => rw [hphase] at hdone; cases hdone

/-- A pair that is added pays for all entries that a step puts on the worklist. -/
theorem remaining_drop {b known grown before after : Nat} (hb : 2 ≤ b) (hmore : known < grown)
    (hmost : grown ≤ b ^ 2) (hgrowth : after ≤ before + b ^ 2 + b ^ 4) :
    (b ^ 2 - grown) * b ^ 5 + after ≤ (b ^ 2 - known) * b ^ 5 + before := by
  have hpays : b ^ 2 + b ^ 4 ≤ b ^ 5 := by
    have hfour : b ^ 5 = b * b ^ 4 := by ring
    have htwo : b ^ 2 ≤ b ^ 4 := Nat.pow_le_pow_right (by omega) (by simp)
    nlinarith
  have hdrop : (b ^ 2 - grown) * b ^ 5 + b ^ 5 ≤ (b ^ 2 - known) * b ^ 5 := by
    rw [← Nat.succ_mul]
    exact Nat.mul_le_mul_right _ (by omega)
  omega

/-- A step on the next entry keeps the invariant and leaves less to do. -/
theorem exists_step_of_pop (hinv : state.Invariant program policy [])
    (hentered : state.Entered program) (hphase : state.phase = .running) {id : PointerId}
    {objects : PointsToSet} {rest : Worklist}
    (hpop : state.worklist.pop? = some ((id, objects), rest)) :
    ∃ new, state.step program policy = .ok (.more new) ∧ new.phase = .running ∧
      new.Invariant program policy [] ∧ new.Entered program ∧
      new.remaining program policy < state.remaining program policy := by
  obtain ⟨place, fresh, targets, pointers, worklist, tasks, hpropagate, htaken, htasks, htargets,
    hquiet⟩ := exists_propagate hinv hpop
  have hinv' := hinv.take htaken
  have hlength : state.worklist.toList.length = rest.toList.length + 1 := by
    rw [htaken.entry, List.length_cons]
  have hsent : worklist.toList.length = rest.toList.length + targets.length := by
    rw [htaken.sent, List.length_append, List.length_map]
  by_cases hfresh : fresh.toList = []
  · -- Nothing is new: the entry is gone, and that is all.
    obtain rfl : tasks = [] := by
      rw [hfresh] at htasks
      simpa using htasks
    rw [hquiet hfresh] at hsent
    refine ⟨_, step_of_pop hphase hpop hpropagate (performAll_nil program policy _), hphase,
      hinv'.withPhase state.phase _, fun entry hentry => hentered entry hentry, ?_⟩
    refine lt_of_eq_of_lt (remaining_of_running hphase)
      (lt_of_lt_of_eq ?_ (remaining_of_running hphase).symm)
    have hspread : spread { state with pointers, worklist, processed := state.processed + 1 } =
        state.spread := by
      refine Set.ext fun ⟨p, o⟩ => (htaken.sets_iff p o).trans ?_
      simp [hfresh, spread]
    dsimp only
    rw [hspread, hlength, hsent, List.length_nil]
    omega
  · obtain ⟨new, hperform, hnew, hcontinues, -, hgrowth⟩ :=
      exists_performAll hinv' (htaken.weigh_le hinv' htasks)
    have hphase' : new.phase = .running := hcontinues.phase.trans hphase
    refine ⟨_, step_of_pop hphase hpop hpropagate hperform, hphase', hnew.withPhase new.phase _,
      ?_, ?_⟩
    · intro entry hentry
      exact hcontinues.extend.holds (htaken.extend.holds (hentered entry hentry))
    · refine lt_of_eq_of_lt (remaining_of_running hphase')
        (lt_of_lt_of_eq ?_ (remaining_of_running hphase).symm)
      have hspread : spread { new with processed := new.processed + 1 } =
          spread { state with pointers, worklist } := hcontinues.spread_eq
      have hmore := htaken.spread_lt hinv' hfresh
      have hmost := hinv'.finite_spread.2
      have hflow := htargets.trans hinv.bounded.flow
      have hsize := hinv.bounded.size
      rw [hspread, hlength]
      dsimp only at hgrowth ⊢
      have hlonger : new.worklist.toList.length ≤ rest.toList.length + bound program policy ^ 2 +
          bound program policy ^ 4 := by omega
      have hdrop := remaining_drop (by omega) hmore hmost hlonger
      omega

theorem sixteen_le_bound (program : Program) (policy : Policy) : 16 ≤ bound program policy := by
  unfold bound
  calc 16 = 2 ^ (2 * 2) := rfl
    _ ≤ 2 ^ ((policy.strategy.depth + 2) * (program.listing.size + 2)) :=
      Nat.pow_le_pow_right (by simp) (Nat.mul_le_mul (by simp) (by simp))

/-- A step of a steady run ends it, or leaves less to do. -/
theorem advances_step (program : Program) (policy : Policy) :
    Advances (step program policy) (Steady program policy)
      (fun state => state.Steady program policy ∧ state.phase = .done)
      (remaining program policy) := by
  intro state hsteady
  cases hphase : state.phase with
  | starting =>
    obtain rfl : state = {} := by
      unfold Steady at hsteady
      rwa [hphase] at hsteady
    obtain ⟨new, hstart, hrunning, hinv, hentered, hlength⟩ := exists_start program policy
    refine .inr ⟨new, ?_, ?_, ?_⟩
    · simp [step, hstart]
    · unfold Steady
      rw [hrunning]
      exact ⟨hinv, hentered⟩
    · rw [remaining_of_running hrunning]
      have hbig := sixteen_le_bound program policy
      have hstarting : remaining program policy {} = bound program policy ^ 8 := rfl
      rw [hstarting]
      generalize bound program policy = b at *
      calc (b ^ 2 - new.spread.ncard) * b ^ 5 + new.worklist.toList.length
          ≤ b ^ 2 * b ^ 5 + b ^ 4 :=
            Nat.add_le_add (Nat.mul_le_mul_right _ (Nat.sub_le _ _)) hlength
        _ ≤ b ^ 7 + b ^ 7 := Nat.add_le_add (by rw [← pow_add])
            (Nat.pow_le_pow_right (by omega) (by simp))
        _ < b ^ 8 := by
            have hpos : 0 < b ^ 7 := Nat.pow_pos (by omega)
            rw [pow_succ b 7]
            nlinarith
  | running =>
    obtain ⟨hinv, hentered⟩ : state.Invariant program policy [] ∧ state.Entered program := by
      unfold Steady at hsteady
      rwa [hphase] at hsteady
    cases hpop : state.worklist.pop? with
    | none =>
      refine .inl ⟨{ state with phase := .done }, ?_, ⟨hinv.withPhase _ _, hentered, ?_⟩, rfl⟩
      · simp [step, hphase, hpop]
      · exact (Queue.pop?_eq_none_iff _).mp hpop
    | some entry =>
      obtain ⟨⟨id, objects⟩, rest⟩ := entry
      obtain ⟨new, hstep, hrunning, hnew, hentered', hless⟩ :=
        exists_step_of_pop hinv hentered hphase hpop
      refine .inr ⟨new, hstep, ?_, hless⟩
      unfold Steady
      rw [hrunning]
      exact ⟨hnew, hentered'⟩
  | done => exact .inl ⟨state, by simp [step, hphase], hsteady, hphase⟩

theorem steady_initial (program : Program) (policy : Policy) : Steady program policy {} := rfl

/-- The states that a run goes through. -/
inductive Reaches (program : Program) (policy : Policy) : State → Prop where
  | initial : Reaches program policy {}
  | step {state : State} {turn : Iteration.Turn State} (h : Reaches program policy state)
    (hstep : state.step program policy = .ok turn) : Reaches program policy turn.state

/-- Every state of a run is steady. -/
theorem Reaches.steady (h : Reaches program policy state) : state.Steady program policy := by
  induction h with
  | initial => exact steady_initial program policy
  | step _ hstep ih =>
    rcases advances_step program policy _ ih with ⟨next, hnext, hdone⟩ | ⟨next, hnext, hsteady, -⟩
    · rw [hstep] at hnext
      cases hnext
      exact hdone.1
    · rw [hstep] at hnext
      cases hnext
      exact hsteady

/-- No state of a run stops it by a fault. -/
theorem Reaches.exists_step (h : Reaches program policy state) :
    ∃ turn, state.step program policy = .ok turn := by
  rcases advances_step program policy _ h.steady with ⟨next, hnext, -⟩ | ⟨next, hnext, -⟩
  · exact ⟨_, hnext⟩
  · exact ⟨_, hnext⟩

/-- Every state of a run has the invariant for some stack. -/
theorem Reaches.exists_invariant (h : Reaches program policy state) :
    ∃ stack, state.Invariant program policy stack := by
  have hsteady := h.steady
  unfold Steady at hsteady
  split at hsteady
  · subst hsteady
    exact ⟨_, @invariant_start program policy .empty rfl rfl⟩
  · exact ⟨[], hsteady.1⟩
  · exact ⟨[], hsteady.1⟩

theorem Reaches.justified (h : Reaches program policy state) {j : Judgement ContextId CsObjId}
    (hj : state.Holds j) : state.Justified program policy j := by
  obtain ⟨stack, hinv⟩ := h.exists_invariant
  exact hinv.justified j hj

/-- Between two steps all that a judgement asks for is recorded or on its way. -/
theorem Reaches.covered (h : Reaches program policy state) {j : Judgement ContextId CsObjId}
    (hj : state.Holds j) : state.Covered program policy [] j := by
  have hsteady := h.steady
  unfold Steady at hsteady
  split at hsteady
  · subst hsteady
    exact absurd hj (@not_holds_start .empty rfl rfl j)
  · exact hsteady.1.covered j hj
  · exact hsteady.1.covered j hj

theorem Reaches.linked (h : Reaches program policy state) : state.Linked := by
  obtain ⟨stack, hinv⟩ := h.exists_invariant
  exact hinv.orderly.linked

/-- Nothing is left to do. -/
structure Finished (program : Program) (policy : Policy) (state : State) : Prop where
  invariant : state.Invariant program policy []
  entered : state.Entered program
  worklist : state.worklist.toList = []

theorem Reaches.finished (h : Reaches program policy state) (hdone : state.phase = .done) :
    state.Finished program policy := by
  have hsteady := h.steady
  unfold Steady at hsteady
  rw [hdone] at hsteady
  exact ⟨hsteady.1, hsteady.2.1, hsteady.2.2⟩

/-- When no task waits, all that is due is recorded. -/
theorem Due.holds {j : Judgement ContextId CsObjId} (h : state.Due [] j) : state.Holds j := by
  rcases h with hholds | hwait
  · exact hholds
  · cases j <;> cases hwait

/-- When no task waits, every statement of a reachable method was executed. -/
theorem Covered.executed {context : ContextId} {site : Site} {stmt : Stmt}
    (h : state.Covered program policy [] (.reachable context site.method))
    (hstmt : program.getStmt site = .ok stmt) :
    state.Executed program policy [] context site stmt := by
  rcases h site stmt rfl hstmt with hmem | heffect
  · cases hmem
  · exact heffect

/-- When no task waits, every access through a variable was opened for all that it points to. -/
theorem Covered.accessed {context : ContextId} {base : VarId} {object : CsObjId}
    (h : state.Covered program policy [] (.pointsTo (.var context base) object)) {site : Site}
    {stmt : Stmt} (hstmt : program.getStmt site = .ok stmt) {route : Route}
    (hroute : stmt.route? = some (base, route)) :
    state.Accessed program policy [] context object site stmt := by
  obtain ⟨task, hserves, hmem | heffect⟩ := h context base site stmt route rfl hstmt hroute
  · cases hmem
  · cases hserves <;> exact heffect stmt hstmt

/-- At the end nothing is on its way. -/
theorem Finished.holds_of_points (h : state.Finished program policy) {place : Pointer}
    {object : CsObjId} (hpoints : state.Points place object) :
    state.Holds (.pointsTo place object) := by
  rcases hpoints with hholds | hpending
  · exact hholds
  · obtain ⟨id, objects, -, hentry, -⟩ := pending_iff.mp hpending
    rw [h.worklist] at hentry
    cases hentry

theorem Finished.flow (h : state.Finished program policy) {source target : Pointer}
    {object : CsObjId} (hflow : state.Holds (.flows source target))
    (hsource : state.Holds (.pointsTo source object)) : state.Holds (.pointsTo target object) :=
  h.holds_of_points (h.invariant.covered _ hflow object hsource)

theorem Finished.executed (h : state.Finished program policy) {context : ContextId} {site : Site}
    {stmt : Stmt} (hreachable : state.Holds (.reachable context site.method))
    (hstmt : program.getStmt site = .ok stmt) :
    state.Executed program policy [] context site stmt :=
  (h.invariant.covered _ hreachable).executed hstmt

theorem Finished.accessed (h : state.Finished program policy) {context : ContextId} {base : VarId}
    {object : CsObjId} (hpoints : state.Holds (.pointsTo (.var context base) object)) {site : Site}
    {stmt : Stmt} (hstmt : program.getStmt site = .ok stmt) {route : Route}
    (hroute : stmt.route? = some (base, route)) :
    state.Accessed program policy [] context object site stmt :=
  (h.invariant.covered _ hpoints).accessed hstmt hroute

/-- A run of the solver always ends, in a state that it reaches and in which nothing is
left to do. -/
theorem exists_solve (program : Program) (policy : Policy) :
    ∃ final, solve program policy {} = .ok final ∧ Reaches program policy final ∧
      final.phase = .done := by
  have hadvances : Advances (step program policy)
      (fun state => state.Steady program policy ∧ Reaches program policy state)
      (fun state => Reaches program policy state ∧ state.phase = .done)
      (remaining program policy) := by
    rintro state ⟨hsteady, hreaches⟩
    rcases advances_step program policy state hsteady with
      ⟨next, hstep, hfinal⟩ | ⟨next, hstep, hnext, hless⟩
    · exact .inl ⟨next, hstep, hreaches.step hstep, hfinal.2⟩
    · exact .inr ⟨next, hstep, ⟨hnext, hreaches.step hstep⟩, hless⟩
  refine settleExcept_final hadvances ⟨steady_initial program policy, .initial⟩ ?_
  have hbig := sixteen_le_bound program policy
  have hstarting : remaining program policy {} = bound program policy ^ 8 := rfl
  rw [two_pow_rounds, hstarting]
  calc bound program policy ^ 8 + 1 < bound program policy ^ 8 * bound program policy := by
        have hpos : 0 < bound program policy ^ 8 := Nat.pow_pos (by omega)
        nlinarith
    _ = bound program policy ^ 9 := (pow_succ _ _).symm
    _ ≤ bound program policy ^ 16 := Nat.pow_le_pow_right (by omega) (by simp)

end State

end ObjectFlow.PointsTo
