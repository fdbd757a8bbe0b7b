import ObjectFlow.Proofs.Dataflow.Constants

/-!
# Monotone transfers

A transfer is monotone when a fact that says less never leads to one that says more.  The
transfers of constant propagation are monotone, with one exception.  A quotient whose dividend
is no constant is no constant either while nothing is known of the divisor, and has no value
once the divisor turns out to be zero.
-/

namespace ObjectFlow

/-- Whether an expression is a quotient or a remainder. -/
def Exp.divides : Exp → Bool
  | .binary op _ _ => op.mayThrow
  | _ => false

/-- Whether a statement assigns a quotient or a remainder. -/
def Stmt.divides : Stmt → Bool
  | .assign _ rhs => rhs.divides
  | _ => false

namespace Dataflow

/-- Less knowledge of the operands gives less knowledge of the result. -/
theorem foldValues_mono {op : BinaryOp} (hop : op.mayThrow = false) {a a' b b' : Value}
    (ha : a ≤ a') (hb : b ≤ b') : foldValues op a b ≤ foldValues op a' b' := by
  simp only [foldValues, hop, Bool.false_eq_true, false_and, if_false]
  rcases ha with rfl | rfl | rfl
  · rcases hb with rfl | rfl | rfl
    · exact le_refl _
    · cases a <;> simp
    · cases a <;> simp
  · rcases hb with rfl | rfl | rfl
    · cases b <;> cases a' <;> simp
    · simp
    · cases a' <;> simp
  · simp

/-- A quotient goes down when its divisor goes up to zero. -/
example : Value.undefined ≤ .constant 0 ∧
    ¬ foldValues .div .nac .undefined ≤ foldValues .div .nac (.constant 0) := by
  decide

theorem evaluate_mono {exp : Exp} (hexp : exp.divides = false) {fact fact' : Fact}
    (h : fact ≤ fact') : evaluate fact exp ≤ evaluate fact' exp := by
  cases exp with
  | literal value => exact le_refl _
  | var v => exact h v
  | binary op lhs rhs => exact foldValues_mono hexp (h lhs) (h rhs)

theorem Fact.update_mono {fact fact' : Fact} (h : fact ≤ fact') (v : VarId) {value value' : Value}
    (hvalue : value ≤ value') : fact.update v value ≤ fact'.update v value' := by
  intro w
  rw [get_update, get_update]
  split
  · exact hvalue
  · exact h w

namespace Constants

theorem assigned_mono {stmt : Stmt} (hstmt : stmt.divides = false) {fact fact' : Fact}
    (h : fact ≤ fact') : assigned stmt fact ≤ assigned stmt fact' := by
  cases stmt with
  | assign lhs rhs => exact evaluate_mono hstmt h
  | copy lhs rhs => exact h rhs
  | _ => exact le_refl _

/-- A statement that does not divide is passed by facts monotonically. -/
theorem transferStmt_mono {stmt : Stmt} (hstmt : stmt.divides = false) (tracked : Bool)
    {fact fact' : Fact} (h : fact ≤ fact') :
    transferStmt tracked stmt fact ≤ transferStmt tracked stmt fact' := by
  unfold transferStmt
  split
  · split
    · exact Fact.update_mono h _ (assigned_mono hstmt h)
    · exact h
  · exact h

end Constants

end Dataflow

end ObjectFlow
