import Mathlib.Data.Int.Bitwise
import Mathlib.Data.Int.ModEq
import ObjectFlow.Proofs.Execution.Arithmetic

/-!
# Folding of constants

The folding of two constants is arithmetic on integers, of which only the last 32 bits are kept:
of all integers that agree with the exact result there, the folded one is that from `-2 ^ 31` up
to `2 ^ 31`.  A quotient is rounded towards zero, also where it leaves the range, and takes the
remainder with it.  A shift goes as far as the last five bits of its right operand say.
-/

namespace ObjectFlow

/-- The integer `c` is the result of an operation on `a` and `b`, as far as the last 32 bits of
the exact result tell.  Bits are those of two's complement. -/
def BinaryOp.Yields (op : BinaryOp) (a b c : Int) : Prop :=
  match op with
  | .add => c ≡ a + b [ZMOD 2 ^ 32]
  | .sub => c ≡ a - b [ZMOD 2 ^ 32]
  | .mul => c ≡ a * b [ZMOD 2 ^ 32]
  | .div => c ≡ a.tdiv b [ZMOD 2 ^ 32]
  | .rem => c ≡ a.tmod b [ZMOD 2 ^ 32]
  | .shl => c ≡ a * 2 ^ (b % 32).toNat [ZMOD 2 ^ 32]
  | .shr => c ≡ a.fdiv (2 ^ (b % 32).toNat) [ZMOD 2 ^ 32]
  | .ushr => c ≡ (a % 2 ^ 32).fdiv (2 ^ (b % 32).toNat) [ZMOD 2 ^ 32]
  | .and => ∀ i < 32, c.testBit i = (a.testBit i && b.testBit i)
  | .or => ∀ i < 32, c.testBit i = (a.testBit i || b.testBit i)
  | .xor => ∀ i < 32, c.testBit i = (a.testBit i ^^ b.testBit i)
  | .eq => c = if a = b then 1 else 0
  | .ne => c = if a ≠ b then 1 else 0
  | .lt => c = if a < b then 1 else 0
  | .le => c = if a ≤ b then 1 else 0
  | .gt => c = if b < a then 1 else 0
  | .ge => c = if b ≤ a then 1 else 0

end ObjectFlow

namespace ObjectFlow.Dataflow

open Execution (calculate? fold_eq_calculate?)

section Words

/-- Wrapping keeps the last 32 bits. -/
theorem toInt_ofInt_modEq (x : Int) : (Int32.ofInt x).toInt ≡ x [ZMOD 2 ^ 32] := by
  rw [Int32.toInt_ofInt]
  exact Int.bmod_emod

/-- The bits of a word are those of the integer that it stands for. -/
theorem testBit_toInt (a : Int32) {i : Nat} (hi : i < 32) :
    a.toInt.testBit i = a.toBitVec.getLsbD i := by
  have hcond := BitVec.toInt_eq_toNat_cond a.toBitVec
  have hlt := a.toBitVec.isLt
  rw [Int32.toInt_toBitVec] at hcond
  rw [← BitVec.testBit_toNat]
  split at hcond
  · rw [hcond]
    rfl
  · -- A negative number has the complement of the bits of its distance to `-1`.
    have hneg : a.toInt = Int.negSucc (2 ^ 32 - (a.toBitVec.toNat + 1)) := by omega
    rw [hneg, Int.testBit, Nat.testBit_two_pow_sub_succ hlt]
    simp [hi]

theorem toInt_truth (holds : Bool) :
    (Execution.truth holds).toInt = if holds then 1 else 0 := by
  cases holds <;> rfl

end Words

/-- Only a quotient or a remainder by zero is absent. -/
theorem fold_eq_none_iff {op : BinaryOp} {a b : Int32} :
    fold op a b = none ↔ (op = .div ∨ op = .rem) ∧ b = 0 := by
  cases op <;> simp [fold]

/-- What folding gives is the result of the operation on integers. -/
theorem yields_of_fold {op : BinaryOp} {a b c : Int32} (h : fold op a b = some c) :
    op.Yields a.toInt b.toInt c.toInt := by
  rw [fold_eq_calculate?] at h
  cases op with
  | add | sub | mul | shl =>
    cases h
    exact toInt_ofInt_modEq _
  | div | rem =>
    simp only [calculate?] at h
    split at h
    · cases h
    · cases h
      exact toInt_ofInt_modEq _
  | shr | ushr =>
    cases h
    rw [BinaryOp.Yields, Int.fdiv_eq_ediv_of_nonneg _ (Int.le_of_lt (Int.pow_pos (by decide)))]
    exact toInt_ofInt_modEq _
  | and | or | xor =>
    cases h
    intro i hi
    simp only [testBit_toInt _ hi, Int32.toBitVec_and, Int32.toBitVec_or, Int32.toBitVec_xor,
      BitVec.getLsbD_and, BitVec.getLsbD_or, BitVec.getLsbD_xor]
  | eq | ne | lt | le | gt | ge =>
    cases h
    simp [BinaryOp.Yields, toInt_truth]

/-- The folded quotient and remainder belong together, also where the quotient leaves the
range. -/
theorem exists_quotient_remainder (a : Int32) {b : Int32} (hb : b ≠ 0) :
    ∃ q r : Int32, fold .div a b = some q ∧ fold .rem a b = some r ∧
      a.toInt ≡ q.toInt * b.toInt + r.toInt [ZMOD 2 ^ 32] ∧ |r.toInt| < |b.toInt| ∧
      (r.toInt = 0 ∨ r.toInt.sign = a.toInt.sign) := by
  have hzero : b.toInt ≠ 0 := fun h => hb (Int32.toInt_inj.mp (h.trans Int32.toInt_zero.symm))
  have hquotient : fold .div a b = some (a / b) := by simp [fold, hb]
  refine ⟨a / b, a % b, hquotient, by simp [fold, hb], ?_⟩
  rw [Int32.toInt_mod]
  refine ⟨?_, ?_, ?_⟩
  · have hdividend := ((yields_of_fold hquotient).mul_right b.toInt).add_right
      (a.toInt.tmod b.toInt)
    rw [Int.tdiv_mul_add_tmod] at hdividend
    exact hdividend.symm
  · rw [Int.abs_eq_natAbs, Int.abs_eq_natAbs, Int.natAbs_tmod]
    exact_mod_cast Nat.mod_lt _ (Int.natAbs_pos.mpr hzero)
  · rw [Int.sign_tmod]
    by_cases hdvd : b.toInt ∣ a.toInt
    · exact .inl (Int.tmod_eq_zero_of_dvd hdvd)
    · exact .inr (if_neg hdvd)

theorem foldValues_constant (op : BinaryOp) (a b : Int32) :
    foldValues op (.constant a) (.constant b) =
      match fold op a b with
      | some c => .constant c
      | none => .undefined := by
  have hdivisor : op.mayThrow = true ∧ b = 0 → fold op a b = none := by
    cases op <;> simp +contextual [BinaryOp.mayThrow, fold]
  unfold foldValues
  split
  · next hthrows => rw [hdivisor (by simpa using hthrows)]
  · rfl

/-- The value of an operation on two constants.  It is absent for a quotient or a remainder by
zero, and otherwise the constant in the range of 32 bits that the operation on integers yields;
quotient and remainder together give back the dividend. -/
theorem evaluate_binary {fact : Fact} {lhs rhs : VarId} {a b : Int32}
    (hlhs : fact.get lhs = .constant a) (hrhs : fact.get rhs = .constant b) :
    (∀ op : BinaryOp, evaluate fact (.binary op lhs rhs) = .undefined ↔
      (op = .div ∨ op = .rem) ∧ b = 0) ∧
    (∀ op : BinaryOp, ¬ ((op = .div ∨ op = .rem) ∧ b = 0) →
      ∃ c : Int32, evaluate fact (.binary op lhs rhs) = .constant c ∧
        -2 ^ 31 ≤ c.toInt ∧ c.toInt < 2 ^ 31 ∧ op.Yields a.toInt b.toInt c.toInt) ∧
    (b ≠ 0 → ∃ q r : Int32, evaluate fact (.binary .div lhs rhs) = .constant q ∧
      evaluate fact (.binary .rem lhs rhs) = .constant r ∧
      a.toInt ≡ q.toInt * b.toInt + r.toInt [ZMOD 2 ^ 32] ∧ |r.toInt| < |b.toInt| ∧
      (r.toInt = 0 ∨ r.toInt.sign = a.toInt.sign)) := by
  simp only [evaluate, hlhs, hrhs, foldValues_constant]
  refine ⟨fun op => ?_, fun op hdefined => ?_, fun hb => ?_⟩
  · rw [← fold_eq_none_iff (a := a)]
    cases fold op a b <;> simp
  · obtain ⟨c, hc⟩ := Option.ne_none_iff_exists'.mp (mt fold_eq_none_iff.mp hdefined)
    rw [hc]
    exact ⟨c, rfl, Int32.le_toInt c, Int32.toInt_lt c, yields_of_fold hc⟩
  · obtain ⟨q, r, hq, hr, hrest⟩ := exists_quotient_remainder a hb
    rw [hq, hr]
    exact ⟨q, r, rfl, rfl, hrest⟩

/-- The least number divided by `-1` leaves the range: the quotient comes out as the least number
again, with the remainder zero. -/
theorem evaluate_binary_least :
    let fact : Fact := ⟨[(⟨0⟩, .constant Int32.minValue), (⟨1⟩, .constant (-1))]⟩
    evaluate fact (.binary .div ⟨0⟩ ⟨1⟩) = .constant Int32.minValue ∧
      evaluate fact (.binary .rem ⟨0⟩ ⟨1⟩) = .constant 0 ∧
      ∃ q r : Int32, evaluate fact (.binary .div ⟨0⟩ ⟨1⟩) = .constant q ∧
        evaluate fact (.binary .rem ⟨0⟩ ⟨1⟩) = .constant r ∧
        Int32.minValue.toInt ≡ q.toInt * (-1 : Int32).toInt + r.toInt [ZMOD 2 ^ 32] := by
  intro fact
  obtain ⟨q, r, hq, hr, hdividend, -⟩ :=
    (@evaluate_binary fact ⟨0⟩ ⟨1⟩ _ _ rfl rfl).2.2 (by decide)
  exact ⟨by decide, by decide, q, r, hq, hr, hdividend⟩

end ObjectFlow.Dataflow
