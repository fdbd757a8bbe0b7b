import ObjectFlow.Proofs.Dataflow.Covering
import ObjectFlow.Proofs.Dataflow.DeadCode
import ObjectFlow.Proofs.Dataflow.MethodFacts
import ObjectFlow.Proofs.Execution.MethodRun

/-!
# Runs without dead code

A method whose dead statements are replaced by statements that do nothing has the runs of the
method.  Side by side, a run and its counterpart stand at the same position, which control gets
to as far as the constants tell; the constants cover the numbers of the run; and both have the
same values in all variables that are live there.  A statement that is kept reads live variables
only, so that it does the same in both.  A dead one writes a variable that is not live after it.
-/

namespace ObjectFlow.Dataflow.DeadCode

open Execution

variable {α : Type} {program : Program} {id : MethodId} {stmts : Array Stmt}
  {vars : Env (Datum α)} {fact : Fact} {index : Nat} {stmt : Stmt}

section Control

/-- An operation has a constant value only on constants. -/
theorem exists_of_foldValues_eq_constant {op : BinaryOp} {x y : Value} {c : Int32}
    (h : foldValues op x y = .constant c) : ∃ a b, x = .constant a ∧ y = .constant b := by
  unfold foldValues at h
  split at h
  · cases h
  · split at h
    · cases h
    · cases h
    · exact ⟨_, _, rfl, rfl⟩
    · cases h

/-- An expression has a constant value only when all that it reads are numbers. -/
theorem all_holdsInt_of_evaluate (hnumeric : Constants.Numeric program fact) {exp : Exp}
    {c : Int32} (h : evaluate fact exp = .constant c) :
    exp.uses.all program.holdsInt = true := by
  have hget : ∀ {v a}, fact.get v = .constant a → program.holdsInt v = true := by
    intro v a hv
    apply hnumeric v
    simp [hv]
  cases exp with
  | literal value => rfl
  | var v => simpa [Exp.uses] using hget h
  | binary op lhs rhs =>
    obtain ⟨a, b, ha, hb⟩ := exists_of_foldValues_eq_constant h
    simp [Exp.uses, hget ha, hget hb]

/-- A run goes along an edge. -/
theorem mem_outEdges_of_next? (hstmt : stmts[index]? = some stmt) {wish next : Nat}
    (hnext : next? program vars wish index stmt = some next) :
    Cfg.nodeAt id stmts.size next ∈
      ((Cfg.ofStmts id stmts).outEdges (.stmt id index)).map (·.2) := by
  rw [nodeAt_eq]
  exact List.mem_eraseDups.mp ((leads_of_next? hnext).mem_succs hstmt)

theorem mem_takenBranch {condition : Exp} {target wish next : Nat}
    (hstmt : stmts[index]? = some (.branch condition target))
    (hnumeric : Constants.Numeric program fact) (hcovers : fact.Covers (supplied program vars))
    (hnext : next? program vars wish index (.branch condition target) = some next) :
    Cfg.nodeAt id stmts.size next ∈
      takenBranch (.ofStmts id stmts) (.stmt id index) condition fact := by
  simp only [takenBranch]
  split
  · next c hconstant =>
    rw [next?, if_pos (all_holdsInt_of_evaluate hnumeric hconstant)] at hnext
    obtain ⟨c', hc', rfl⟩ := Option.map_eq_some_iff.mp hnext
    -- The number that the run sees is the constant.
    have hallows := hcovers.evaluate condition
    rw [hc', Value.allows_some_iff, hconstant] at hallows
    obtain rfl : c = c' := by simpa using hallows
    rw [Cfg.outEdges_stmt hstmt]
    by_cases hzero : c = 0 <;> simp [Cfg.exits, hzero]
  · exact mem_outEdges_of_next? hstmt hnext

theorem caseMatches_switchCase (cases : List (Int32 × Nat)) (c value : Int32) :
    caseMatches cases c (.switchCase value) = (value == c) := rfl

theorem caseMatches_switchDefault (cases : List (Int32 × Nat)) (c : Int32) :
    caseMatches cases c .switchDefault = !cases.any fun (value, _) => value == c := rfl

/-- Of the edges to the cases of a switch, the first that matches is the one to the case that
is looked up. -/
theorem head?_matching_cases (cases arms : List (Int32 × Nat)) (c : Int32) (at' : Nat → Node) :
    (((arms.map fun arm => (EdgeKind.switchCase arm.1, at' arm.2)).filter
      fun edge => caseMatches cases c edge.1).map (·.2)).head? = (arms.lookup c).map at' := by
  induction arms with
  | nil => rfl
  | cons arm arms ih =>
    obtain ⟨value, target⟩ := arm
    rw [lookup_cons_ite]
    by_cases hvalue : c = value
    · simp [caseMatches_switchCase, hvalue]
    · have hmiss : caseMatches cases c (.switchCase value) = false := by
        rw [caseMatches_switchCase, beq_eq_false_iff_ne]
        exact Ne.symm hvalue
      rw [if_neg hvalue, ← ih, List.map_cons, List.filter_cons_of_neg (by simp [hmiss])]

/-- A switch on a constant goes to the first case with that value, or to the default. -/
theorem takenSwitch_constant {v : VarId} {cases : List (Int32 × Nat)} {default : Nat}
    (hstmt : stmts[index]? = some (.switch v cases default)) (c : Int32) :
    takenSwitch (.ofStmts id stmts) (.stmt id index) cases (.constant c) =
      [Cfg.nodeAt id stmts.size ((cases.lookup c).getD default)] := by
  have hfirst := head?_matching_cases cases cases c (Cfg.nodeAt id stmts.size)
  simp only [takenSwitch, Cfg.outEdges_stmt hstmt, Cfg.exits, List.filter_append, List.map_append,
    List.take_one, List.head?_append, hfirst]
  cases hlookup : cases.lookup c with
  | some target => rfl
  | none =>
    have hnone : cases.any (fun (value, _) => value == c) = false := by
      rw [List.any_eq_false]
      intro arm harm
      have hne : c ≠ arm.1 := by simpa using List.lookup_eq_none_iff.mp hlookup arm harm
      simpa using hne.symm
    simp [caseMatches_switchDefault, hnone]

theorem mem_takenSwitch {v : VarId} {cases : List (Int32 × Nat)} {default wish next : Nat}
    (hstmt : stmts[index]? = some (.switch v cases default))
    (hnumeric : Constants.Numeric program fact) (hcovers : fact.Covers (supplied program vars))
    (hnext : next? program vars wish index (.switch v cases default) = some next) :
    Cfg.nodeAt id stmts.size next ∈
      takenSwitch (.ofStmts id stmts) (.stmt id index) cases (fact.get v) := by
  cases hvalue : fact.get v with
  | constant c =>
    have hint : program.holdsInt v = true := hnumeric v (by simp [hvalue])
    rw [next?, if_pos hint] at hnext
    obtain ⟨c', hc', rfl⟩ := Option.map_eq_some_iff.mp hnext
    have hallows := hcovers v
    rw [hc', Value.allows_some_iff, hvalue] at hallows
    obtain rfl : c = c' := by simpa using hallows
    rw [takenSwitch_constant hstmt]
    exact List.mem_singleton_self _
  | undefined => exact mem_outEdges_of_next? hstmt hnext
  | nac => exact mem_outEdges_of_next? hstmt hnext

/-- A run goes where control goes as far as the constants tell. -/
theorem mem_follow {constants : Facts Fact} (live : Facts (SortedSet VarId))
    (hstmt : stmts[index]? = some stmt)
    (hnumeric : Constants.Numeric program (constants.input (.stmt id index)))
    (hcovers : (constants.input (.stmt id index)).Covers (supplied program vars))
    {wish next : Nat} (hnext : next? program vars wish index stmt = some next) :
    Cfg.nodeAt id stmts.size next ∈
      (follow (.ofStmts id stmts) constants live (.stmt id index)).1 := by
  have hat : (Cfg.ofStmts id stmts).stmt? (.stmt id index) = some stmt := hstmt
  simp only [follow, hat]
  cases stmt with
  | branch condition target => exact mem_takenBranch hstmt hnumeric hcovers hnext
  | switch v cases default => exact mem_takenSwitch hstmt hnumeric hcovers hnext
  | _ => exact List.mem_eraseDups.mpr (mem_outEdges_of_next? hstmt hnext)

end Control

section Numbers

/-- What a statement gives to a variable for small numbers is allowed by what it gives to the
fact. -/
theorem allows_given {lhs : VarId} {value : Datum α} {datum : Option (Datum α)}
    (hcovers : fact.Covers (supplied program vars)) (hlhs : stmt.writes? = some lhs)
    (hint : program.holdsInt lhs = true)
    (hgiven : given? program vars value stmt = some datum) :
    (Constants.assigned stmt fact).Allows (datum.bind Datum.number?) := by
  cases stmt with
  | assign lhs' rhs =>
    obtain ⟨c, hc, rfl⟩ := Option.map_eq_some_iff.mp hgiven
    have hallows := hcovers.evaluate rhs
    rw [hc] at hallows
    exact hallows
  | copy lhs' rhs =>
    cases hlhs
    rw [given?, if_pos hint] at hgiven
    obtain ⟨c, hc, rfl⟩ := Option.map_eq_some_iff.mp hgiven
    have hallows := hcovers rhs
    rw [hc] at hallows
    exact hallows
  | _ => exact .nac _

/-- The fact after a statement covers the numbers after it. -/
theorem covers_written {vars' : Env (Datum α)} {value : Datum α}
    (hcovers : fact.Covers (supplied program vars))
    (hwritten : written? program vars value stmt = some vars') :
    (Constants.passes program stmt fact).Covers (supplied program vars') := by
  simp only [written?] at hwritten
  simp only [Constants.passes, Constants.transferStmt]
  cases hlhs : stmt.writes? with
  | none =>
    rw [hlhs] at hwritten
    cases hwritten
    exact hcovers
  | some lhs =>
    rw [hlhs] at hwritten
    obtain ⟨datum, hgiven, rfl⟩ := Option.map_eq_some_iff.mp hwritten
    rw [supplied_update]
    cases hint : program.holdsInt lhs with
    | true =>
      have hassign := @Fact.Covers.assign program fact _ hcovers lhs _ _
        (allows_given hcovers hlhs hint hgiven)
      simpa [hint] using hassign
    | false =>
      have hassign := @Fact.Covers.assign program fact _ hcovers lhs _ _
        (.nac (datum.bind Datum.number?))
      simpa [hint] using hassign

/-- At the start of a run the numbers of the parameters are covered where these may have any
value. -/
theorem covers_start {method : Method} {start : Moment α}
    (hparams : ∀ param ∈ method.params, program.holdsInt param = true → fact.get param = .nac)
    (hstart : Starts program method start) : fact.Covers (supplied program start.vars) := by
  intro v c hc
  have hint : program.holdsInt v = true := by
    by_contra hother
    rw [supplied_eq_none (by simpa using hother)] at hc
    cases hc
  by_cases hparam : v ∈ method.params
  · rw [hparams v hparam hint]
    exact Value.le_nac _
  · simp [supplied, carried, hstart.locals v hparam hint] at hc

end Numbers

section Liveness

variable {live : Facts (SortedSet VarId)} {node : Node} {vars' next : Env (Datum α)}
  {value : Datum α}

theorem writes?_of_pureTarget? {lhs : VarId} (h : pureTarget? stmt = some lhs) :
    stmt.writes? = some lhs := by
  cases stmt with
  | copy lhs' rhs => exact h
  | assign lhs' rhs =>
    cases rhs with
    | binary op a b =>
      simp only [pureTarget?] at h
      split at h
      · cases h
      · exact h
    | _ => exact h
  | _ => cases h

/-- After a statement that only writes a variable control goes on to the next one. -/
theorem next?_of_pureTarget? {lhs : VarId} (h : pureTarget? stmt = some lhs)
    (wish position : Nat) : next? program vars wish position stmt = some (position + 1) := by
  cases stmt with
  | copy lhs' rhs => rfl
  | assign lhs' rhs => rfl
  | _ => cases h

theorem isDeadAssignment_iff :
    isDeadAssignment stmt (live.after.get? node) = true ↔
      ∃ lhs, pureTarget? stmt = some lhs ∧ lhs ∉ (Liveness.liveAfter live node).toList := by
  simp only [isDeadAssignment, Liveness.liveAfter]
  cases pureTarget? stmt with
  | none => simp
  | some lhs =>
    cases live.after.get? node with
    | none => simp [SortedSet.toList]
    | some set => simp [← SortedSet.contains_iff_mem]

/-- Two runs have the same values in a set of variables. -/
def Agree (live : SortedSet VarId) (vars vars' : Env (Datum α)) : Prop :=
  ∀ v ∈ live.toList, vars v = vars' v

theorem Agree.mono {live live' : SortedSet VarId} (h : Agree live vars vars') (hle : live' ≤ live) :
    Agree live' vars vars' :=
  fun v hv => h v (hle v hv)

variable {after : SortedSet VarId}

/-- What a statement reads is live before it. -/
theorem Agree.uses (h : Agree (Liveness.transferStmt stmt after) vars vars') :
    ∀ v ∈ stmt.uses, vars v = vars' v :=
  fun v hv => h v (Liveness.mem_transferStmt.mpr (.inl hv))

/-- A statement that both runs execute writes the same value in both. -/
theorem Agree.written (h : Agree (Liveness.transferStmt stmt after) vars vars')
    (hwritten : written? program vars value stmt = some next) :
    ∃ next', written? program vars' value stmt = some next' ∧ Agree after next next' := by
  obtain ⟨next', hnext', hsame⟩ := exists_written?_of_agree h.uses hwritten
  use next', hnext'
  intro v hv
  apply hsame v
  by_cases hwrites : stmt.writes? = some v
  · exact .inl hwrites
  · exact .inr (h v (Liveness.mem_transferStmt.mpr (.inr ⟨hv, hwrites⟩)))

/-- A statement that writes a variable which is not live may be executed by one run only. -/
theorem Agree.written_dead {lhs : VarId}
    (h : Agree (Liveness.transferStmt stmt after) vars vars') (hlhs : stmt.writes? = some lhs)
    (hdead : lhs ∉ after.toList) (hwritten : written? program vars value stmt = some next) :
    Agree after next vars' := by
  intro v hv
  have hne : v ≠ lhs := fun heq => hdead (heq ▸ hv)
  simp only [written?, hlhs] at hwritten
  obtain ⟨datum, -, rfl⟩ := Option.map_eq_some_iff.mp hwritten
  rw [Function.update_of_ne hne]
  apply h v
  exact Liveness.mem_transferStmt.mpr (.inr ⟨hv, by simpa [hlhs] using hne.symm⟩)

end Liveness

/-- The statements of a method with the dead ones replaced. -/
def without (dead : List Nat) (stmts : Array Stmt) : Array Stmt :=
  stmts.mapIdx fun index stmt => if index ∈ dead then .nop else stmt

@[simp]
theorem getElem?_without (dead : List Nat) (stmts : Array Stmt) (index : Nat) :
    (without dead stmts)[index]? =
      stmts[index]?.map fun stmt => if index ∈ dead then .nop else stmt := by
  rw [without, Array.getElem?_mapIdx]

section Runs

variable {method : Method} {constants : Facts Fact} {live : Facts (SortedSet VarId)}
  {reached : List Node} {dead : List Nat} {moment moment' next : Moment α} {choice : Choice α}

/-- The facts of a method, and its dead statements among the nodes that control gets to. -/
structure Analyzed (program : Program) (id : MethodId) (method : Method)
    (constants : Facts Fact) (live : Facts (SortedSet VarId)) (reached : List Node)
    (dead : List Nat) : Prop where
  solvesConstants : Constants.Solves program id method constants
  solvesLive : Liveness.Solves id method.stmts live
  finds : Finds id method.stmts constants live reached dead

/-- A run and its counterpart at one moment. -/
structure Aligned (program : Program) (id : MethodId) (size : Nat) (constants : Facts Fact)
    (live : Facts (SortedSet VarId)) (reached : List Node) (moment moment' : Moment α) : Prop where
  position : moment'.position = moment.position
  reached : Cfg.nodeAt id size moment.position ∈ reached
  covers : (constants.input (Cfg.nodeAt id size moment.position)).Covers
    (supplied program moment.vars)
  agree : Agree (Liveness.liveBefore live (Cfg.nodeAt id size moment.position))
    moment.vars moment'.vars

/-- Where a statement is dead, the counterpart does nothing. -/
theorem step?_of_dead (hposition : moment'.position = moment.position)
    (hstmt : stmts[moment.position]? = some stmt) (hdead : moment.position ∈ dead) :
    step? program (without dead stmts) choice moment' =
      some ⟨moment.position + 1, moment'.vars⟩ := by
  apply step?_eq_some_iff.mpr
  exact ⟨.nop, by simp [hposition, hstmt, hdead], rfl, by rw [hposition]; rfl⟩

/-- Where a statement is kept, the counterpart does what the run does. -/
theorem exists_step?_of_kept {after : SortedSet VarId}
    (hposition : moment'.position = moment.position)
    (hstmt : stmts[moment.position]? = some stmt) (hkept : moment.position ∉ dead)
    (hagree : Agree (Liveness.transferStmt stmt after) moment.vars moment'.vars)
    (hstep : step? program stmts choice moment = some next) :
    ∃ vars', step? program (without dead stmts) choice moment' = some ⟨next.position, vars'⟩ ∧
      Agree after next.vars vars' := by
  obtain ⟨found, hfound, hwritten, hnext⟩ := step?_eq_some_iff.mp hstep
  rw [hstmt] at hfound
  cases hfound
  obtain ⟨vars', hwritten', hagree'⟩ := hagree.written hwritten
  rw [next?_congr hagree.uses] at hnext
  use vars'
  constructor
  · apply step?_eq_some_iff.mpr
    exact ⟨stmt, by simp [hposition, hstmt, hkept], hwritten', by rw [hposition]; exact hnext⟩
  · exact hagree'

/-- The counterpart makes every step of the run. -/
theorem Analyzed.step (h : Analyzed program id method constants live reached dead)
    (haligned : Aligned program id method.stmts.size constants live reached moment moment')
    (hstep : step? program method.stmts choice moment = some next) :
    ∃ next', step? program (without dead method.stmts) choice moment' = some next' ∧
      Aligned program id method.stmts.size constants live reached next next' := by
  obtain ⟨stmt, hstmt, hwritten, hnext⟩ := step?_eq_some_iff.mp hstep
  obtain ⟨hposition, hreached, hcovers, hagree⟩ := haligned
  rw [Cfg.nodeAt_of_getElem? hstmt] at hreached hcovers hagree
  rw [h.solvesLive.before hstmt] at hagree
  -- The run goes along an edge that the constants leave open.
  have hfollow := mem_follow live hstmt (h.solvesConstants.numeric _) hcovers hnext
  have hsucc := mem_succs_of_mem_follow hfollow
  have hreached' := h.finds.closed _ hreached _ hfollow
  have hcovers' := (covers_written hcovers hwritten).mono (h.solvesConstants.flows hstmt _ hsucc)
  have hafter := h.solvesLive.flows hstmt _ hsucc
  by_cases hdead : moment.position ∈ dead
  · obtain ⟨lhs, hpure, hnot⟩ :=
      isDeadAssignment_iff.mp ((h.finds.dead hstmt hreached).mp hdead)
    have hagree' := hagree.written_dead (writes?_of_pureTarget? hpure) hnot hwritten
    rw [next?_of_pureTarget? hpure] at hnext
    exact ⟨_, step?_of_dead hposition hstmt hdead, by simpa using hnext, hreached', hcovers',
      hagree'.mono hafter⟩
  · obtain ⟨vars', hstep', hagree'⟩ := exists_step?_of_kept hposition hstmt hdead hagree hstep
    exact ⟨_, hstep', rfl, hreached', hcovers', hagree'.mono hafter⟩

/-- A moment of a run and the moment of its counterpart: both are at one position, where a
statement that is not dead reads the same values in both and does not stop one of them only. -/
structure Matches (program : Program) (stmts : Array Stmt) (dead : List Nat)
    (moment moment' : Moment α) : Prop where
  position : moment'.position = moment.position
  reads : ∀ stmt, stmts[moment.position]? = some stmt → moment.position ∉ dead →
    ∀ v ∈ stmt.uses, moment.vars v = moment'.vars v
  stops : moment.position ∉ dead → ∀ choice, step? program stmts choice moment = none →
    step? program (without dead stmts) choice moment' = none

theorem Analyzed.matches (h : Analyzed program id method constants live reached dead)
    (haligned : Aligned program id method.stmts.size constants live reached moment moment') :
    Matches program method.stmts dead moment moment' := by
  have hreads : ∀ stmt, method.stmts[moment.position]? = some stmt →
      ∀ v ∈ stmt.uses, moment.vars v = moment'.vars v := by
    intro stmt hstmt
    have hagree := haligned.agree
    rw [Cfg.nodeAt_of_getElem? hstmt, h.solvesLive.before hstmt] at hagree
    exact hagree.uses
  constructor
  · exact haligned.position
  · exact fun stmt hstmt _ => hreads stmt hstmt
  · intro hkept choice hnone
    by_contra hsome
    obtain ⟨next', hnext'⟩ := Option.ne_none_iff_exists'.mp hsome
    obtain ⟨stmt, hstmt, hwritten, hnext⟩ := step?_eq_some_iff.mp hnext'
    rw [haligned.position] at hstmt hnext
    have hfound : method.stmts[moment.position]? = some stmt := by simpa [hkept] using hstmt
    have huses := hreads stmt hfound
    obtain ⟨vars, hwritten', -⟩ :=
      exists_written?_of_agree (fun v hv => (huses v hv).symm) hwritten
    rw [← next?_congr huses] at hnext
    have hstep : step? program method.stmts choice moment = some ⟨next'.position, vars⟩ :=
      step?_eq_some_iff.mpr ⟨stmt, hfound, hwritten', hnext⟩
    rw [hnone] at hstep
    cases hstep

/-- The counterpart of a run, moment by moment. -/
theorem Analyzed.run (h : Analyzed program id method constants live reached dead)
    (haligned : Aligned program id method.stmts.size constants live reached moment moment')
    {choices : List (Choice α)} {moments : List (Moment α)}
    (hrun : run? program method.stmts choices moment = some moments) :
    ∃ moments', run? program (without dead method.stmts) choices moment' = some moments' ∧
      List.Forall₂ (Matches program method.stmts dead) moments moments' := by
  induction choices generalizing moment moment' moments with
  | nil =>
    cases hrun
    exact ⟨[moment'], rfl, .cons (h.matches haligned) .nil⟩
  | cons choice choices ih =>
    obtain ⟨next, rest, hstep, hrest, rfl⟩ := run?_cons_eq_some_iff.mp hrun
    obtain ⟨next', hstep', haligned'⟩ := h.step haligned hstep
    obtain ⟨rest', hrest', hmatches⟩ := ih haligned' hrest
    exact ⟨_, run?_cons_eq_some_iff.mpr ⟨next', rest', hstep', hrest', rfl⟩,
      .cons (h.matches haligned) hmatches⟩

theorem Analyzed.aligned_start (h : Analyzed program id method constants live reached dead)
    (hstart : Starts program method moment) :
    Aligned program id method.stmts.size constants live reached moment moment where
  position := rfl
  reached := hstart.position ▸ h.finds.start
  covers := hstart.position ▸ covers_start h.solvesConstants.params hstart
  agree _ _ := rfl

end Runs

theorem exists_analyze {method : Method} (hmethod : program.getMethod id = .ok method) :
    ∃ constants live reached dead, analyze program id = .ok dead ∧
      Analyzed program id method constants live reached dead := by
  obtain ⟨constants, hconstants, hsolves⟩ := Constants.exists_analyze hmethod
  obtain ⟨live, hlive, hsolves'⟩ := Liveness.exists_analyze hmethod
  obtain ⟨reached, hfinds⟩ := exists_finds constants live id method.stmts
  have hanalyze : analyze program id = .ok (find (.ofStmts id method.stmts) constants live) := by
    rw [analyze, Cfg.build_of_getMethod hmethod, ok_bind, hconstants, ok_bind, hlive, ok_bind,
      pure_eq_ok]
  exact ⟨constants, live, reached, _, hanalyze, hsolves, hsolves', hfinds⟩

/-- Every run of a method is matched by a run without the dead statements that takes the same
choices and visits the same positions in the same order.  A statement that is not dead reads
the same values in both, and when it stops one run it stops the other. -/
theorem analyze_preserves_runs {method : Method} (hmethod : program.getMethod id = .ok method) :
    ∃ dead, analyze program id = .ok dead ∧
      ∀ {α : Type} (start : Moment α) (choices : List (Choice α)) (moments : List (Moment α)),
        Starts program method start → run? program method.stmts choices start = some moments →
          ∃ moments', run? program (without dead method.stmts) choices start = some moments' ∧
            List.Forall₂ (Matches program method.stmts dead) moments moments' := by
  obtain ⟨constants, live, reached, dead, hanalyze, hanalyzed⟩ := exists_analyze hmethod
  use dead, hanalyze
  intro α start choices moments hstart hrun
  exact hanalyzed.run (hanalyzed.aligned_start hstart) hrun

/-- A method whose branch is always taken, so that two statements are never reached, and that
overwrites a variable before it is read. -/
def gateListing : Listing where
  classes := #[{ id := ⟨0⟩, name := "Gate", superClass := none, interfaces := [],
                 isInterface := false, isAbstract := false, methods := [⟨0⟩] }]
  methods := #[
    { id := ⟨0⟩, name := "pass", declaringClass := ⟨0⟩, subsignature := "pass(int)",
      isStatic := true, isAbstract := false, this := none, params := [⟨0⟩],
      stmts := #[.assign ⟨1⟩ (.literal 7), .branch (.var ⟨1⟩) 4, .copy ⟨2⟩ ⟨0⟩, .ret (some ⟨2⟩),
        .copy ⟨2⟩ ⟨0⟩, .copy ⟨2⟩ ⟨1⟩, .ret (some ⟨2⟩)] }]
  fields := #[]
  vars := #[⟨⟨0⟩, "n", .int, ⟨0⟩⟩, ⟨⟨1⟩, "open", .int, ⟨0⟩⟩, ⟨⟨2⟩, "r", .int, ⟨0⟩⟩]
  entries := [⟨0⟩]

/-- The program of `gateListing`. -/
def gateProgram : Program where
  listing := gateListing
  sound := by decide
  index := Index.ofListing gateListing
  index_eq := rfl

/-- The start of a run of `gateProgram` on five. -/
def gateStart : Moment Unit := ⟨0, fun v => if v = ⟨0⟩ then some (.number 5) else none⟩

/-- Choices for four steps. -/
def gateChoices : List (Choice Unit) := List.replicate 4 ⟨.other (), 0⟩

/-- A run of `gateProgram` jumps over the statements that are never reached, and has a
counterpart without them. -/
theorem analyze_preserves_runs_gate : ∃ moments moments',
    analyze gateProgram ⟨0⟩ = .ok [2, 3, 4] ∧
      Starts gateProgram gateListing.methods[0] gateStart ∧
      run? gateProgram gateListing.methods[0].stmts gateChoices gateStart = some moments ∧
      moments.map Moment.position = [0, 1, 4, 5, 6] ∧
      run? gateProgram (without [2, 3, 4] gateListing.methods[0].stmts) gateChoices gateStart =
        some moments' ∧
      List.Forall₂ (Matches gateProgram gateListing.methods[0].stmts [2, 3, 4])
        moments moments' := by
  have hmethod : gateProgram.getMethod ⟨0⟩ = .ok gateListing.methods[0] := rfl
  have hanalyze : analyze gateProgram ⟨0⟩ = .ok [2, 3, 4] := by decide +kernel
  have hstart : Starts gateProgram gateListing.methods[0] gateStart := by
    constructor
    · rfl
    · intro v hv _
      exact ⟨5, if_pos (List.mem_singleton.mp hv)⟩
    · intro v hv _
      exact if_neg fun heq => hv (List.mem_singleton.mpr heq)
  have hpositions : (run? gateProgram gateListing.methods[0].stmts gateChoices gateStart).map
      (·.map Moment.position) = some [0, 1, 4, 5, 6] := by decide
  obtain ⟨moments, hrun, hmoments⟩ := Option.map_eq_some_iff.mp hpositions
  obtain ⟨dead, hdead, hruns⟩ := analyze_preserves_runs hmethod
  rw [hanalyze] at hdead
  cases hdead
  obtain ⟨moments', hrun', hmatches⟩ := hruns gateStart gateChoices moments hstart hrun
  exact ⟨moments, moments', hanalyze, hstart, hrun, hmoments, hrun', hmatches⟩

end ObjectFlow.Dataflow.DeadCode
