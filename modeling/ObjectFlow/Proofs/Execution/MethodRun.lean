import ObjectFlow.Proofs.Execution.Numbers
import ObjectFlow.Proofs.Table

/-!
# Runs of one method

A reference semantics of one method by itself.  A variable holds nothing, a number of 32 bits
or a value of another kind.  Only variables of a type for small numbers supply numbers.  What
an allocation, a load or a call gives does not come from the method, nor does the way that a
branch takes on other values than numbers; a step takes both from a choice.  A run stops where
a number is needed and there is none, at a return, and past the last statement.
-/

namespace ObjectFlow.Execution

/-- What a variable may hold: a number, or a value of another kind. -/
inductive Datum (α : Type) where
  | number (value : Int32)
  | other (value : α)
  deriving DecidableEq, Repr

/-- What a step takes from outside the method. -/
structure Choice (α : Type) where
  /-- The value of an allocation, a load or a call. -/
  value : Datum α
  /-- Where a branch on other values than numbers goes. -/
  next : Nat
  deriving DecidableEq, Repr

/-- A moment of a run: the position that comes next, and the variables. -/
structure Moment (α : Type) where
  position : Nat
  vars : Env (Datum α)

variable {α : Type}

def Datum.number? : Datum α → Option Int32
  | number value => some value
  | other _ => none

section

variable (program : Program) (vars : Env (Datum α))

/-- The numbers that the variables supply. -/
def supplied : Env Int32 := carried program fun v => (vars v).bind Datum.number?

/-- What a statement gives to the variable that it writes.  A copy into a variable for small
numbers needs a number; any other copy takes what is there. -/
def given? (value : Datum α) : Stmt → Option (Option (Datum α))
  | .assign _ rhs => (evaluate? (supplied program vars) rhs).map fun c => some (.number c)
  | .copy lhs rhs =>
    if program.holdsInt lhs then (supplied program vars rhs).map fun c => some (.number c)
    else some (vars rhs)
  | _ => some (some value)

/-- The variables after a statement. -/
def written? (value : Datum α) (stmt : Stmt) : Option (Env (Datum α)) :=
  match stmt.writes? with
  | some lhs => (given? program vars value stmt).map (Function.update vars lhs)
  | none => some vars

/-- Where a statement goes, with `wish` for a branch that reads a variable which supplies no
numbers. -/
def next? (wish position : Nat) : Stmt → Option Nat
  | .branch condition target =>
    if condition.uses.all program.holdsInt then
      (evaluate? (supplied program vars) condition).map fun c =>
        if c ≠ 0 then target else position + 1
    else if wish = target ∨ wish = position + 1 then some wish else none
  | .switch v cases default =>
    if program.holdsInt v then
      (supplied program vars v).map fun c => (cases.lookup c).getD default
    else if wish = default ∨ wish ∈ cases.map (·.2) then some wish else none
  | .jump target => some target
  | .ret _ => none
  | _ => some (position + 1)

/-- One step of a run. -/
def step? (stmts : Array Stmt) (choice : Choice α) (moment : Moment α) : Option (Moment α) := do
  let stmt ← stmts[moment.position]?
  let vars ← written? program moment.vars choice.value stmt
  let next ← next? program moment.vars choice.next moment.position stmt
  return ⟨next, vars⟩

/-- The moments of a run that makes one step for each choice. -/
def run? (stmts : Array Stmt) : List (Choice α) → Moment α → Option (List (Moment α))
  | [], moment => some [moment]
  | choice :: choices, moment => do
    let next ← step? program stmts choice moment
    let rest ← run? stmts choices next
    return moment :: rest

/-- A run starts at the first statement.  Parameters for small numbers hold any numbers, and
other variables for small numbers hold nothing. -/
structure Starts (method : Method) (moment : Moment α) : Prop where
  position : moment.position = 0
  params : ∀ v ∈ method.params, program.holdsInt v = true →
    ∃ c, moment.vars v = some (.number c)
  locals : ∀ v, v ∉ method.params → program.holdsInt v = true → moment.vars v = none

end

section

variable {program : Program} {vars vars' : Env (Datum α)} {value : Datum α}
  {stmts : Array Stmt} {stmt : Stmt}

theorem supplied_eq_none {v : VarId} (h : program.holdsInt v = false) :
    supplied program vars v = none := by
  simp [supplied, carried, h]

/-- After a variable is written, it supplies what it was given. -/
theorem supplied_update (lhs : VarId) (datum : Option (Datum α)) :
    supplied program (Function.update vars lhs datum) =
      carried program (Function.update (supplied program vars) lhs (datum.bind Datum.number?)) := by
  funext v
  by_cases hv : v = lhs
  · subst hv
    simp [supplied, carried]
  · cases hint : program.holdsInt v <;> simp [supplied, carried, hv, hint]

section Congruence

/-! What a statement does depends only on the variables that it reads. -/

theorem supplied_congr {v : VarId} (h : vars v = vars' v) :
    supplied program vars v = supplied program vars' v := by
  simp only [supplied, carried, h]

theorem evaluate?_congr {exp : Exp} (h : ∀ v ∈ exp.uses, vars v = vars' v) :
    evaluate? (supplied program vars) exp = evaluate? (supplied program vars') exp := by
  cases exp with
  | literal c => rfl
  | var v => exact supplied_congr (h v List.mem_cons_self)
  | binary op lhs rhs =>
    have hlhs : supplied program vars lhs = supplied program vars' lhs :=
      supplied_congr (h lhs (by simp [Exp.uses]))
    have hrhs : supplied program vars rhs = supplied program vars' rhs :=
      supplied_congr (h rhs (by simp [Exp.uses]))
    simp only [evaluate?, hlhs, hrhs]

theorem given?_congr (h : ∀ v ∈ stmt.uses, vars v = vars' v) :
    given? program vars value stmt = given? program vars' value stmt := by
  cases stmt with
  | assign lhs rhs => simp only [given?, evaluate?_congr h]
  | copy lhs rhs =>
    have hrhs := h rhs List.mem_cons_self
    simp only [given?, supplied_congr hrhs, hrhs]
  | _ => rfl

theorem next?_congr {wish position : Nat} (h : ∀ v ∈ stmt.uses, vars v = vars' v) :
    next? program vars wish position stmt = next? program vars' wish position stmt := by
  cases stmt with
  | branch condition target => simp only [next?, evaluate?_congr h]
  | switch v cases default => simp only [next?, supplied_congr (h v List.mem_cons_self)]
  | _ => rfl

/-- A statement that reads the same values writes the same value. -/
theorem exists_written?_of_agree {next : Env (Datum α)}
    (huses : ∀ v ∈ stmt.uses, vars v = vars' v)
    (hwritten : written? program vars value stmt = some next) :
    ∃ next', written? program vars' value stmt = some next' ∧
      ∀ v, stmt.writes? = some v ∨ vars v = vars' v → next v = next' v := by
  simp only [written?] at hwritten ⊢
  cases hlhs : stmt.writes? with
  | none =>
    rw [hlhs] at hwritten
    cases hwritten
    exact ⟨vars', rfl, fun v hv => hv.resolve_left nofun⟩
  | some lhs =>
    rw [hlhs, given?_congr huses] at hwritten
    obtain ⟨datum, hdatum, rfl⟩ := Option.map_eq_some_iff.mp hwritten
    use Function.update vars' lhs datum, Option.map_eq_some_iff.mpr ⟨datum, hdatum, rfl⟩
    intro v hv
    by_cases hvlhs : v = lhs
    · simp [hvlhs]
    · have hsame : vars v = vars' v := hv.resolve_left fun heq => hvlhs (by simpa using heq.symm)
      simp [hvlhs, hsame]

end Congruence

theorem step?_eq_some_iff {choice : Choice α} {moment next : Moment α} :
    step? program stmts choice moment = some next ↔
      ∃ stmt, stmts[moment.position]? = some stmt ∧
        written? program moment.vars choice.value stmt = some next.vars ∧
        next? program moment.vars choice.next moment.position stmt = some next.position := by
  simp only [step?, bind, Option.bind_eq_some_iff, pure, Option.some.injEq]
  constructor
  · rintro ⟨stmt, hstmt, vars, hvars, position, hposition, rfl⟩
    exact ⟨stmt, hstmt, hvars, hposition⟩
  · rintro ⟨stmt, hstmt, hvars, hposition⟩
    exact ⟨stmt, hstmt, next.vars, hvars, next.position, hposition, rfl⟩

theorem run?_cons_eq_some_iff {choice : Choice α} {choices : List (Choice α)} {moment : Moment α}
    {moments : List (Moment α)} :
    run? program stmts (choice :: choices) moment = some moments ↔
      ∃ next rest, step? program stmts choice moment = some next ∧
        run? program stmts choices next = some rest ∧ moments = moment :: rest := by
  simp only [run?, bind, Option.bind_eq_some_iff, pure, Option.some.injEq]
  constructor
  · rintro ⟨next, hnext, rest, hrest, rfl⟩
    exact ⟨next, rest, hnext, hrest, rfl⟩
  · rintro ⟨next, rest, hnext, hrest, rfl⟩
    exact ⟨next, hnext, rest, hrest, rfl⟩

/-- A run goes where control may go. -/
theorem leads_of_next? {wish position length next : Nat}
    (h : next? program vars wish position stmt = some next) :
    Leads length position stmt (pointAt length next) := by
  cases stmt with
  | branch condition target =>
    simp only [next?] at h
    split at h
    · obtain ⟨c, -, rfl⟩ := Option.map_eq_some_iff.mp h
      split
      · exact .inl rfl
      · exact .inr rfl
    · split at h
      · next hwish =>
        cases h
        exact hwish.imp (congrArg _) (congrArg _)
      · cases h
  | switch v cases default =>
    simp only [next?] at h
    split at h
    · obtain ⟨c, -, rfl⟩ := Option.map_eq_some_iff.mp h
      cases hlookup : cases.lookup c with
      | none => exact .inr rfl
      | some target => exact .inl ⟨(c, target), mem_of_lookup hlookup, rfl⟩
    · split at h
      · next hwish =>
        cases h
        rcases hwish with rfl | hwish
        · exact .inr rfl
        · obtain ⟨arm, harm, rfl⟩ := List.mem_map.mp hwish
          exact .inl ⟨arm, harm, rfl⟩
      · cases h
  | ret returned => cases h
  | _ =>
    cases h
    rfl

end

end ObjectFlow.Execution
