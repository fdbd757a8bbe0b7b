import ObjectFlow.Proofs.PointsTo.Run

/-!
# The solver terminates

Both loops of the solver are run under a bound on their steps.  This module shows that the
bound is never what ends them.  `Empties` and `After` are the same loops without a bound: a
stack of tasks is worked off to its end, and a run goes on step by step.  Each step of a run
works its stack off, a run that is not over can always go on, and no run has more steps than
the one that the solver makes.  What every task and every step keep, `Kept`, holds along the
whole run.
-/

namespace ObjectFlow.PointsTo

/-- Doing the tasks of a stack one after the other, with all that they lead to, ends in
`final`. -/
inductive Empties (program : Program) (policy : Policy) : State → List Task → State → Prop where
  | nil (state : State) : Empties program policy state [] state
  | cons {state next final : State} {task : Task} {tasks rest : List Task}
    (hperform : perform program policy state task = .ok (next, tasks))
    (hrest : Empties program policy next (tasks ++ rest) final) :
    Empties program policy state (task :: rest) final

/-- One step of a run, in which no bound ends the work on the tasks. -/
inductive Proceeds (program : Program) (policy : Policy) : State → State → Prop where
  /-- The entry methods are made reachable. -/
  | start {state new : State} (hphase : state.phase = .starting)
    (hempties : Empties program policy
      { state with
        calls := (program.entries.map (CsMethod.mk Contexts.root)).foldl CallGraph.addEntry
          state.calls }
      (program.entries.map fun entry => .reach ⟨Contexts.root, entry⟩) new) :
    Proceeds program policy state { new with phase := .running }
  /-- An entry of the worklist is taken. -/
  | take {state taken new : State} {id : PointerId} {objects : PointsToSet} {rest : Worklist}
    {tasks : List Task} (hphase : state.phase = .running)
    (hpop : state.worklist.pop? = some ((id, objects), rest))
    (hpropagate : propagate program { state with worklist := rest } id objects =
      .ok (taken, tasks))
    (hempties : Empties program policy taken tasks new) :
    Proceeds program policy state { new with processed := new.processed + 1 }
  /-- The worklist is empty. -/
  | finish {state : State} (hphase : state.phase = .running)
    (hpop : state.worklist.pop? = none) :
    Proceeds program policy state { state with phase := .done }

/-- `After program policy count state`: the state of a run after `count` steps. -/
inductive After (program : Program) (policy : Policy) : Nat → State → Prop where
  | initial : After program policy 0 {}
  | step {count : Nat} {state next : State} (hafter : After program policy count state)
    (hproceeds : Proceeds program policy state next) : After program policy (count + 1) next

variable {program : Program} {policy : Policy}

section Stack

variable {state final final' : State} {stack : List Task} {work next : State × List Task}

theorem Empties.unique (h : Empties program policy state stack final)
    (h' : Empties program policy state stack final') : final = final' := by
  induction h with
  | nil => cases h'; rfl
  | cons hperform _ ih =>
    cases h' with
    | cons hperform' hrest' =>
      rw [hperform] at hperform'
      cases hperform'
      exact ih hrest'

theorem empties_of_done (h : performNext program policy work = .ok (.done next)) :
    Empties program policy work.1 work.2 next.1 := by
  obtain ⟨state, stack⟩ := work
  cases stack with
  | nil =>
    cases h
    exact .nil state
  | cons task rest =>
    obtain ⟨performed, -, hmore⟩ := bind_eq_ok_iff.mp h
    cases hmore

theorem empties_of_more (h : performNext program policy work = .ok (.more next))
    (hrest : Empties program policy next.1 next.2 final) :
    Empties program policy work.1 work.2 final := by
  obtain ⟨state, stack⟩ := work
  cases stack with
  | nil => cases h
  | cons task rest =>
    obtain ⟨⟨performed, tasks⟩, hperform, hmore⟩ := bind_eq_ok_iff.mp h
    cases hmore
    exact .cons hperform hrest

/-- The bound on the tasks of a step is never reached. -/
theorem exists_empties (h : state.Invariant program policy stack)
    (hstack : weigh stack ≤ bound program policy ^ 2) :
    ∃ new, performAll program policy state stack = .ok new ∧
      Empties program policy state stack new := by
  have hadvances : Iteration.Advances (performNext program policy)
      (fun work => State.Underway program policy (state, stack) work ∧
        ∀ final, Empties program policy work.1 work.2 final →
          Empties program policy state stack final)
      (fun work => Empties program policy state stack work.1) (State.budget program policy) := by
    rintro work ⟨hunderway, hback⟩
    rcases State.advances_performNext _ work hunderway with
      ⟨next, hnext, -⟩ | ⟨next, hnext, hunderway', hless⟩
    · exact .inl ⟨next, hnext, hback _ (empties_of_done hnext)⟩
    · exact .inr ⟨next, hnext,
        ⟨hunderway', fun final hfinal => hback final (empties_of_more hnext hfinal)⟩, hless⟩
  obtain ⟨⟨new, tasks⟩, hsettle, hempties⟩ := Iteration.settleExcept_final hadvances
    ⟨⟨h, .refl state, fun _ hj => hj, Nat.le_refl _⟩, fun _ hfinal => hfinal⟩
    (State.budget_lt_rounds h hstack)
  exact ⟨new, by simp [performAll, hsettle], hempties⟩

end Stack

section Steps

variable {state next next' : State} {count count' : Nat}

theorem Proceeds.unique (h : Proceeds program policy state next)
    (h' : Proceeds program policy state next') : next = next' := by
  cases h with
  | start hphase hempties =>
    cases h' with
    | start _ hempties' => rw [hempties.unique hempties']
    | take hphase' => simp [hphase] at hphase'
    | finish hphase' => simp [hphase] at hphase'
  | take hphase hpop hpropagate hempties =>
    cases h' with
    | start hphase' => simp [hphase] at hphase'
    | take _ hpop' hpropagate' hempties' =>
      rw [hpop] at hpop'
      cases hpop'
      rw [hpropagate] at hpropagate'
      cases hpropagate'
      rw [hempties.unique hempties']
    | finish _ hpop' => simp [hpop] at hpop'
  | finish hphase hpop =>
    cases h' with
    | start hphase' => simp [hphase] at hphase'
    | take _ hpop' => simp [hpop] at hpop'
    | finish => rfl

/-- A run that is over goes no further. -/
theorem Proceeds.phase_ne_done (h : Proceeds program policy state next) : state.phase ≠ .done := by
  cases h with
  | start hphase => simp [hphase]
  | take hphase => simp [hphase]
  | finish hphase => simp [hphase]

/-- A steady run that is not over takes its next step, whose tasks are all worked off. -/
theorem State.Steady.exists_proceeds (h : state.Steady program policy)
    (hphase : state.phase ≠ .done) :
    ∃ turn, state.step program policy = .ok turn ∧ Proceeds program policy state turn.state := by
  cases hcase : state.phase with
  | starting =>
    obtain rfl : state = {} := by
      unfold State.Steady at h
      rwa [hcase] at h
    obtain ⟨hreachable, hedges⟩ :=
      State.foldl_addEntry (program.entries.map (CsMethod.mk Contexts.root)) .empty
    obtain ⟨new, hperform, hempties⟩ := exists_empties
      (State.invariant_start program policy hreachable hedges)
      (State.weigh_entries_le program policy)
    refine ⟨.more { new with phase := .running }, ?_, .start rfl hempties⟩
    simp only [State.step, State.start, List.map_map, Function.comp_def] at hperform ⊢
    rw [hperform]
    rfl
  | running =>
    have hinv : state.Invariant program policy [] := by
      unfold State.Steady at h
      rw [hcase] at h
      exact h.1
    cases hpop : state.worklist.pop? with
    | none => exact ⟨.done { state with phase := .done }, by simp [State.step, hcase, hpop],
        .finish hcase hpop⟩
    | some entry =>
      obtain ⟨⟨id, objects⟩, rest⟩ := entry
      obtain ⟨place, fresh, targets, pointers, worklist, tasks, hpropagate, htaken, htasks, -⟩ :=
        exists_propagate hinv hpop
      have hinv' := hinv.take htaken
      obtain ⟨new, hperform, hempties⟩ := exists_empties hinv' (htaken.weigh_le hinv' htasks)
      exact ⟨_, State.step_of_pop hcase hpop hpropagate hperform,
        .take hcase hpop hpropagate hempties⟩
  | done => exact absurd hcase hphase

/-- The states of a run without bounds are those that the solver goes through. -/
theorem After.reaches (h : After program policy count state) :
    State.Reaches program policy state := by
  induction h with
  | initial => exact .initial
  | step _ hproceeds ih =>
    obtain ⟨turn, hstep, hturn⟩ := ih.steady.exists_proceeds hproceeds.phase_ne_done
    rw [hproceeds.unique hturn]
    exact ih.step hstep

theorem State.Reaches.exists_after (h : State.Reaches program policy state) :
    ∃ count, After program policy count state := by
  induction h with
  | initial => exact ⟨0, .initial⟩
  | @step state turn hreaches hstep ih =>
    obtain ⟨count, hafter⟩ := ih
    by_cases hphase : state.phase = .done
    · -- A step of a run that is over changes nothing.
      have hsame : state.step program policy = .ok (.done state) := by simp [State.step, hphase]
      rw [hstep] at hsame
      cases hsame
      exact ⟨count, hafter⟩
    · obtain ⟨turn', hstep', hproceeds⟩ := hreaches.steady.exists_proceeds hphase
      rw [hstep] at hstep'
      cases hstep'
      exact ⟨count + 1, hafter.step hproceeds⟩

/-- No run is longer than one that is over. -/
theorem After.count_le (h : After program policy count state) {final : State}
    (hfinal : After program policy count' final) (hdone : final.phase = .done) :
    count ≤ count' := by
  -- Two runs of one length end in one state, so a longer one would go on from `final`.
  have hunique : ∀ {n s}, After program policy n s → ∀ {t}, After program policy n t → s = t := by
    intro n s hs
    induction hs with
    | initial => intro t ht; cases ht; rfl
    | step _ hproceeds ih =>
      intro t ht
      cases ht with
      | step hafter hproceeds' =>
        cases ih hafter
        exact hproceeds.unique hproceeds'
  induction h with
  | initial => exact Nat.zero_le count'
  | step hafter hproceeds ih =>
    refine Nat.lt_of_le_of_ne ih ?_
    rintro rfl
    cases hunique hafter hfinal
    exact hproceeds.phase_ne_done hdone

/-- The solver terminates on every program, under every policy.  A step of a run always works
off its tasks, however deep the methods call each other, and after finitely many steps the
run is over, with an empty worklist. -/
theorem solve_terminates (program : Program) (policy : Policy) :
    (∀ count state, After program policy count state → state.phase ≠ .done →
      ∃ turn, state.step program policy = .ok turn ∧
        Proceeds program policy state turn.state) ∧
    ∃ count final, After program policy count final ∧ final.phase = .done ∧
      final.worklist.toList = [] ∧ State.solve program policy {} = .ok final ∧
      ∀ count' state, After program policy count' state → count' ≤ count := by
  refine ⟨fun count state hafter hphase => hafter.reaches.steady.exists_proceeds hphase, ?_⟩
  obtain ⟨final, hsolve, hreaches, hdone⟩ := State.exists_solve program policy
  obtain ⟨count, hafter⟩ := hreaches.exists_after
  exact ⟨count, final, hafter, hdone, (hreaches.finished hdone).worklist, hsolve,
    fun _ _ h => h.count_le hafter hdone⟩

end Steps

/-- A property of a state and its stack of tasks that no part of a run loses. -/
structure Kept (program : Program) (policy : Policy) (P : State → List Task → Prop) : Prop where
  /-- It holds before a run, with entry methods on the stack or without. -/
  started : ∀ {calls : CallGraph CsSite CsMethod}, calls.reachable = .empty →
    calls.edges = .empty → ∀ {entries : List MethodId}, entries ⊆ program.entries →
      P { ({} : State) with calls } (entries.map fun entry => .reach ⟨Contexts.root, entry⟩)
  performed : ∀ {old new : State} {task : Task} {tasks rest : List Task}
    {added : Judgement ContextId CsObjId → Prop} {offered : Pointer → CsObjId → Prop},
    old.Invariant program policy (task :: rest) →
      perform program policy old task = .ok (new, tasks) →
      Performed program policy old task new tasks added offered →
      P old (task :: rest) → P new (tasks ++ rest)
  taken : ∀ {state : State} {id : PointerId} {objects fresh : PointsToSet}
    {rest worklist : Worklist} {place : Pointer} {targets : List PointerId} {pointers : Pointers}
    {tasks : List Task},
    State.Taken program state id objects fresh rest place targets pointers worklist tasks →
      P state [] → P { state with pointers, worklist } tasks
  phase : ∀ {state : State} (phase : Phase) (processed : Nat), P state [] →
    P { state with phase, processed } []

section Kept

variable {P : State → List Task → Prop} (h : Kept program policy P) {state next final : State}
  {stack : List Task} {count : Nat}
include h

theorem Kept.empties (hempties : Empties program policy state stack final)
    (hinv : state.Invariant program policy stack) (hstate : P state stack) : P final [] := by
  induction hempties with
  | nil => exact hstate
  | cons hperform _ ih =>
    obtain ⟨next, tasks, added, offered, hperform', hperformed, -⟩ := progresses hinv
    rw [hperform] at hperform'
    cases hperform'
    exact ih (hinv.perform hperformed) (h.performed hinv hperform hperformed hstate)

theorem Kept.proceeds (hproceeds : Proceeds program policy state next)
    (hsteady : state.Steady program policy) (hstate : P state []) : P next [] := by
  unfold State.Steady at hsteady
  cases hproceeds with
  | start hphase hempties =>
    rw [hphase] at hsteady
    subst hsteady
    obtain ⟨hreachable, hedges⟩ :=
      State.foldl_addEntry (program.entries.map (CsMethod.mk Contexts.root)) .empty
    exact h.phase _ _ (h.empties hempties (State.invariant_start program policy hreachable hedges)
      (h.started hreachable hedges fun _ hentry => hentry))
  | take hphase hpop hpropagate hempties =>
    rw [hphase] at hsteady
    obtain ⟨place, fresh, targets, pointers, worklist, tasks, hpropagate', htaken, -⟩ :=
      State.exists_propagate hsteady.1 hpop
    rw [hpropagate] at hpropagate'
    cases hpropagate'
    exact h.phase _ _ (h.empties hempties (hsteady.1.take htaken) (h.taken htaken hstate))
  | finish => exact h.phase _ _ hstate

/-- What is kept holds after any number of steps. -/
theorem Kept.after (hafter : After program policy count state) : P state [] := by
  induction hafter with
  | initial => exact h.started rfl rfl (List.nil_subset _)
  | step hafter hproceeds ih => exact h.proceeds hproceeds hafter.reaches.steady ih

end Kept

/-- A method that calls itself, with an object that is stored into its own field and two
variables that are copied to each other. -/
def knotListing : Listing where
  classes := #[{ id := ⟨0⟩, name := "Knot", superClass := none, interfaces := [],
                 isInterface := false, isAbstract := false, methods := [⟨0⟩] }]
  methods := #[
    { id := ⟨0⟩, name := "tie", declaringClass := ⟨0⟩, subsignature := "tie()", isStatic := true,
      isAbstract := false, this := none, params := [],
      stmts := #[.alloc ⟨0⟩ (.object ⟨0⟩), .storeField (some ⟨0⟩) ⟨0⟩ ⟨0⟩, .copy ⟨1⟩ ⟨0⟩,
        .copy ⟨0⟩ ⟨1⟩, .invoke { kind := .static, target := ⟨⟨0⟩, "tie()"⟩, base := none,
                                 args := [], result := none }] }]
  fields := #[⟨⟨0⟩, "next", ⟨0⟩, .object ⟨0⟩, false⟩]
  vars := #[⟨⟨0⟩, "a", .object ⟨0⟩, ⟨0⟩⟩, ⟨⟨1⟩, "b", .object ⟨0⟩, ⟨0⟩⟩]
  entries := [⟨0⟩]

/-- The program of `knotListing`. -/
def knotProgram : Program where
  listing := knotListing
  sound := by decide
  index := Index.ofListing knotListing
  index_eq := rfl

/-- The run on `knotProgram` under call strings of length two starts and ends. -/
theorem solve_terminates_knot :
    (∃ turn, State.step knotProgram ⟨.callSite 2, 1⟩ {} = .ok turn ∧
      Proceeds knotProgram ⟨.callSite 2, 1⟩ {} turn.state) ∧
    ∃ count final, After knotProgram ⟨.callSite 2, 1⟩ count final ∧ final.phase = .done ∧
      final.worklist.toList = [] := by
  obtain ⟨hproceeds, count, final, hafter, hdone, hworklist, -⟩ :=
    solve_terminates knotProgram ⟨.callSite 2, 1⟩
  exact ⟨hproceeds 0 {} .initial (by decide), count, final, hafter, hdone, hworklist⟩

end ObjectFlow.PointsTo
