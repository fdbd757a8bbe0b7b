import Mathlib.Algebra.Ring.Int.Defs
import ObjectFlow.Dataflow.Constants

/-!
# Arithmetic of runs

Numbers have 32 bits in two's complement.  An operation is defined by what it does to
integers, and its result is taken modulo `2 ^ 32`.  Constant folding does the same.
-/

namespace ObjectFlow.Execution

/-- How far a shift goes: the last five bits of its right operand. -/
def shiftDistance (b : Int32) : Nat := (b.toInt % 32).toNat

/-- Comparisons give one or zero. -/
def truth (holds : Bool) : Int32 := if holds then 1 else 0

/-- The result of an operation, absent for a zero divisor.  Division rounds towards zero,
and a shift to the right rounds down. -/
def calculate? (op : BinaryOp) (a b : Int32) : Option Int32 :=
  match op with
  | .add => some (.ofInt (a.toInt + b.toInt))
  | .sub => some (.ofInt (a.toInt - b.toInt))
  | .mul => some (.ofInt (a.toInt * b.toInt))
  | .div => if b.toInt = 0 then none else some (.ofInt (a.toInt.tdiv b.toInt))
  | .rem => if b.toInt = 0 then none else some (.ofInt (a.toInt.tmod b.toInt))
  | .eq => some (truth (a.toInt = b.toInt))
  | .ne => some (truth (a.toInt ≠ b.toInt))
  | .lt => some (truth (a.toInt < b.toInt))
  | .le => some (truth (a.toInt ≤ b.toInt))
  | .gt => some (truth (b.toInt < a.toInt))
  | .ge => some (truth (b.toInt ≤ a.toInt))
  | .shl => some (.ofInt (a.toInt * 2 ^ shiftDistance b))
  | .shr => some (.ofInt (a.toInt / 2 ^ shiftDistance b))
  | .ushr => some (.ofInt (a.toInt % 2 ^ 32 / 2 ^ shiftDistance b))
  | .and => some (a &&& b)
  | .or => some (a ||| b)
  | .xor => some (a ^^^ b)

section Shifts

variable (a b : Int32)

theorem shiftDistance_eq_toNat_smod : shiftDistance b = (b.toBitVec.smod 32).toNat := by
  have hsmod : (b.toBitVec.smod 32).toInt = b.toInt % 32 := by
    rw [BitVec.toInt_smod, Int32.toInt_toBitVec, Int.fmod_eq_emod_of_nonneg _ (by decide)]
    rfl
  have hnonneg : 0 ≤ b.toInt % 32 := Int.emod_nonneg _ (by decide)
  rw [shiftDistance, ← hsmod]
  rw [← hsmod] at hnonneg
  rw [BitVec.toInt_eq_toNat_cond] at hnonneg ⊢
  split at hnonneg <;> omega

theorem shiftDistance_eq_toNat_mod : shiftDistance b = b.toBitVec.toNat % 32 := by
  have hcond := BitVec.toInt_eq_toNat_cond b.toBitVec
  rw [Int32.toInt_toBitVec] at hcond
  unfold shiftDistance
  split at hcond <;> omega

theorem shiftLeft_eq_ofInt : a <<< b = .ofInt (a.toInt * 2 ^ shiftDistance b) := by
  apply Int32.toInt_inj.mp
  have htoNat : a.toInt = (a.toBitVec.toNat : Int).bmod (2 ^ 32) := by
    rw [← Int32.toInt_toBitVec, BitVec.toInt_eq_toNat_bmod]
  rw [← Int32.toInt_toBitVec, Int32.toBitVec_shiftLeft, BitVec.shiftLeft_eq',
    BitVec.toInt_shiftLeft, Int32.toInt_ofInt, ← shiftDistance_eq_toNat_smod, Nat.shiftLeft_eq,
    htoNat]
  push_cast
  exact (Int.bmod_mul_bmod).symm

theorem shiftRight_eq_ofInt : a >>> b = .ofInt (a.toInt / 2 ^ shiftDistance b) := by
  have hshift : (a >>> b).toInt = a.toInt / 2 ^ shiftDistance b := by
    rw [← Int32.toInt_toBitVec, Int32.toBitVec_shiftRight, BitVec.sshiftRight_eq',
      BitVec.toInt_sshiftRight, ← shiftDistance_eq_toNat_smod, Int.shiftRight_eq_div_pow,
      Int32.toInt_toBitVec]
    norm_cast
  rw [← hshift, Int32.ofInt_toInt]

/-- A shift that fills up with zeros divides the number without its sign. -/
theorem logicalShiftRight_eq_ofInt :
    (a.toUInt32 >>> b.toUInt32).toInt32 = .ofInt (a.toInt % 2 ^ 32 / 2 ^ shiftDistance b) := by
  have hunsigned : a.toInt % 2 ^ 32 = a.toBitVec.toNat := by
    have hcond := BitVec.toInt_eq_toNat_cond a.toBitVec
    rw [Int32.toInt_toBitVec] at hcond
    have hlt := a.toBitVec.isLt
    split at hcond <;> omega
  have hshift : (a.toUInt32 >>> b.toUInt32).toInt32.toBitVec =
      .ofNat 32 (a.toBitVec.toNat / 2 ^ (b.toBitVec.toNat % 32)) := by
    have hlt : a.toBitVec.toNat / 2 ^ (b.toBitVec.toNat % 32) < 2 ^ 32 :=
      Nat.lt_of_le_of_lt (Nat.div_le_self _ _) a.toBitVec.isLt
    apply BitVec.eq_of_toNat_eq
    rw [BitVec.toNat_ofNat, Nat.mod_eq_of_lt hlt]
    simp [Nat.shiftRight_eq_div_pow]
  apply Int32.toBitVec_inj.mp
  rw [hunsigned, shiftDistance_eq_toNat_mod, hshift]
  norm_cast

end Shifts

/-- Folding of constants calculates as a run does. -/
theorem fold_eq_calculate? (op : BinaryOp) (a b : Int32) :
    Dataflow.fold op a b = calculate? op a b := by
  have hzero : b.toInt = 0 ↔ b = 0 := by rw [← Int32.toInt_zero, Int32.toInt_inj]
  cases op with
  | add => simp [Dataflow.fold, calculate?]
  | sub => simp [Dataflow.fold, calculate?]
  | mul => simp [Dataflow.fold, calculate?]
  | div =>
    have hdiv : a / b = .ofInt (a.toInt.tdiv b.toInt) := by
      rw [eq_comm, Int32.ofInt_eq_iff_bmod_eq_toInt, Int32.toInt_div]
    simp only [Dataflow.fold, calculate?, hzero, hdiv]
  | rem =>
    have hrem : a % b = .ofInt (a.toInt.tmod b.toInt) := by
      rw [← Int32.toInt_mod, Int32.ofInt_toInt]
    simp only [Dataflow.fold, calculate?, hzero, hrem]
  | eq => simp [Dataflow.fold, calculate?, truth, Int32.toInt_inj]
  | ne => simp [Dataflow.fold, calculate?, truth, Int32.toInt_inj]
  | lt => simp [Dataflow.fold, calculate?, truth, Int32.lt_iff_toInt_lt]
  | le => simp [Dataflow.fold, calculate?, truth, Int32.le_iff_toInt_le]
  | gt => simp [Dataflow.fold, calculate?, truth, Int32.lt_iff_toInt_lt]
  | ge => simp [Dataflow.fold, calculate?, truth, Int32.le_iff_toInt_le]
  | shl => rw [Dataflow.fold, calculate?, shiftLeft_eq_ofInt]
  | shr => rw [Dataflow.fold, calculate?, shiftRight_eq_ofInt]
  | ushr => rw [Dataflow.fold, calculate?, logicalShiftRight_eq_ofInt]
  | and => rfl
  | or => rfl
  | xor => rfl

end ObjectFlow.Execution
