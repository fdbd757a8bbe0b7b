import ObjectFlow.Proofs.Dataflow.Constants
import ObjectFlow.Proofs.Execution.Numbers

/-!
# Facts that cover the numbers of a run

A fact covers the numbers of variables when it gives each variable with a number that
number, or says that it is not a constant.  What a statement does to a fact then covers
what it does to numbers.
-/

namespace ObjectFlow.Dataflow

open Execution (Cell Env Numbers calculate? carried evaluate?)

/-- A value allows what a variable holds. -/
def Value.Allows (value : Value) (number : Option Int32) : Prop :=
  ∀ c, number = some c → .constant c ≤ value

/-- A fact allows every variable what it holds. -/
def Fact.Covers (fact : Fact) (vars : Env Int32) : Prop := ∀ v, (fact.get v).Allows (vars v)

namespace Value.Allows

variable {value value' : Value} {number : Option Int32}

theorem mono (h : value.Allows number) (hle : value ≤ value') : value'.Allows number :=
  fun c hc => (h c hc).trans hle

theorem none (value : Value) : value.Allows none := fun _ hc => by cases hc

theorem nac (number : Option Int32) : Value.nac.Allows number := fun _ _ => le_nac _

end Value.Allows

theorem Value.allows_some_iff {value : Value} {c : Int32} :
    value.Allows (some c) ↔ value = .constant c ∨ value = .nac := by
  simp [Allows, constant_le_iff]

namespace Fact.Covers

variable {program : Program} {fact fact' : Fact} {vars : Env Int32}

theorem mono (h : fact.Covers vars) (hle : fact ≤ fact') : fact'.Covers vars :=
  fun v => (h v).mono (hle v)

theorem carried (h : fact.Covers vars) : fact.Covers (carried program vars) := by
  intro v
  unfold Execution.carried
  split
  · exact h v
  · exact .none _

theorem update (h : fact.Covers vars) {lhs : VarId} {value : Value} {number : Option Int32}
    (hvalue : value.Allows number) :
    (fact.update lhs value).Covers (Function.update vars lhs number) := by
  intro v
  rw [Fact.get_update]
  by_cases hv : v = lhs
  · subst hv
    simpa using hvalue
  · simpa [hv] using h v

/-- A variable that no longer carries a number is covered by any fact. -/
theorem unassign (h : fact.Covers vars) (lhs : VarId) :
    (fact.remove lhs).Covers (Function.update vars lhs none) := by
  intro v
  rw [Fact.get_remove]
  by_cases hv : v = lhs
  · subst hv
    simpa using Value.Allows.none _
  · simpa [hv] using h v

/-- A variable for other values may be left out. -/
theorem assign (h : fact.Covers vars) {lhs : VarId} {value : Value} {number : Option Int32}
    (hvalue : value.Allows number) :
    (if program.holdsInt lhs then fact.update lhs value else fact).Covers
      (Execution.carried program (Function.update vars lhs number)) := by
  split
  · exact (h.update hvalue).carried
  · next hlhs =>
    intro v
    by_cases hv : v = lhs
    · simpa [Execution.carried, hv, hlhs] using Value.Allows.none _
    · simpa [Execution.carried, hv] using h.carried v

end Fact.Covers

section Statement

variable {program : Program} {fact : Fact} {vars : Env Int32}

/-- Folding of values allows what the operation gives. -/
theorem allows_foldValues {op : BinaryOp} {x y : Value} {a b : Int32}
    (hx : x.Allows (some a)) (hy : y.Allows (some b)) :
    (foldValues op x y).Allows (calculate? op a b) := by
  rw [Value.allows_some_iff] at hx hy
  rw [← Execution.fold_eq_calculate?]
  unfold foldValues
  split
  · next hzero =>
    -- A divisor that is known to be zero stops the run.
    obtain ⟨hthrow, rfl⟩ := hzero
    obtain rfl : b = 0 := by simpa [eq_comm] using hy
    cases op <;> first | exact .none _ | cases hthrow
  · rcases hx with rfl | rfl
    · rcases hy with rfl | rfl
      · intro c hc
        simp [hc]
      · exact .nac _
    · exact .nac _

theorem Fact.Covers.evaluate (h : fact.Covers vars) (exp : Exp) :
    (evaluate fact exp).Allows (evaluate? vars exp) := by
  cases exp with
  | literal value =>
    intro c hc
    cases hc
    exact le_refl _
  | var v => exact h v
  | binary op lhs rhs =>
    intro c hc
    obtain ⟨a, ha, hc⟩ := Option.bind_eq_some_iff.mp hc
    obtain ⟨b, hb, hc⟩ := Option.bind_eq_some_iff.mp hc
    exact allows_foldValues (ha ▸ h lhs) (hb ▸ h rhs) c hc

/-- What a statement gives to a variable is allowed by what it gives to the fact. -/
theorem Fact.Covers.assigned {numbers : Numbers} (h : fact.Covers numbers.vars)
    (cell : Option Cell) (stmt : Stmt) :
    (Constants.assigned stmt fact).Allows (numbers.given? cell stmt) := by
  cases stmt with
  | assign lhs rhs => exact h.evaluate rhs
  | copy lhs rhs => exact h rhs
  | _ => exact .nac _

/-- The fact after a statement covers the numbers after it. -/
theorem Fact.Covers.transferStmt {numbers : Numbers} (h : fact.Covers numbers.vars)
    (cell : Option Cell) (stmt : Stmt) :
    (Constants.transferStmt (stmt.writes?.any program.holdsInt) stmt fact).Covers
      (numbers.execute program cell stmt).vars := by
  unfold Constants.transferStmt Numbers.execute
  cases stmt.writes? with
  | none => exact h
  | some lhs => exact h.assign (h.assigned cell stmt)

end Statement

end ObjectFlow.Dataflow
