import PauliEstimation.Measurement.BasisChange
import PauliEstimation.Proofs.Exact.PauliPower

namespace PauliEstimation.BasisChange

open Matrix

/-- The two final rotations of a qubit, as one matrix. -/
noncomputable def rotation (axis : Pauli) (flip : Bool) : Matrix Bool Bool ℂ :=
  (Gate.power .y (finalExponents (R := ℝ) axis flip).2).matrix *
    (Gate.power .x (finalExponents (R := ℝ) axis flip).1).matrix

/-- What a qubit contributes to the value of a row: the sign of its bit with the flip undone, if it
has a factor. -/
noncomputable def readout (factor : Option Pauli) (flip bit : Bool) : ℝ :=
  factor.elim 1 fun _ => if xor bit flip then -1 else 1

noncomputable def readoutMatrix (factor : Option Pauli) (flip : Bool) : Matrix Bool Bool ℂ :=
  diagonal fun bit => (readout factor flip bit : ℂ)

theorem readoutMatrix_some (axis : Pauli) (flip : Bool) :
    readoutMatrix (some axis) flip = (if flip then (-1 : ℂ) else 1) • Pauli.z.matrix := by
  ext p q
  cases flip <;> cases p <;> cases q <;> simp [readoutMatrix, readout, Pauli.matrix]

theorem rotation_unitary (axis : Pauli) (flip : Bool) :
    (rotation axis flip)ᴴ * rotation axis flip = 1 := by
  rw [rotation, conjTranspose_mul, mul_assoc, ← mul_assoc _ (Gate.matrix _),
    Gate.matrix_power_unitary, one_mul, Gate.matrix_power_unitary]

/-- The readout of a qubit, turned back by its rotations, is the operator of its axis. In every row
of the table one of the two exponents is zero, so that only one rotation acts. -/
theorem rotation_conjugates (axis : Pauli) (flip : Bool) :
    (rotation axis flip)ᴴ * readoutMatrix (some axis) flip * rotation axis flip = axis.matrix := by
  have hi : Complex.I * Complex.I = -1 := Complex.I_mul_I
  rw [rotation, readoutMatrix_some, mul_smul_comm, smul_mul_assoc]
  cases axis with
  | x =>
    cases flip with
    | false =>
      simp only [finalExponents, Gate.matrix_power_zero, mul_one]
      rw [Gate.matrix_power_neg_half_conjugates (by decide), Pauli.matrix_z_mul_y]
      simp [smul_smul, hi]
    | true =>
      simp only [finalExponents, Gate.matrix_power_zero, mul_one]
      rw [Gate.matrix_power_half_conjugates (by decide), Pauli.matrix_z_mul_y]
      simp [smul_smul, hi]
  | y =>
    cases flip with
    | false =>
      simp only [finalExponents, Gate.matrix_power_zero, one_mul]
      rw [Gate.matrix_power_half_conjugates (by decide), Pauli.matrix_z_mul_x]
      simp [smul_smul, hi]
    | true =>
      simp only [finalExponents, Gate.matrix_power_zero, one_mul]
      rw [Gate.matrix_power_neg_half_conjugates (by decide), Pauli.matrix_z_mul_x]
      simp [smul_smul, hi]
  | z =>
    cases flip with
    | false => simp [finalExponents, Gate.matrix_power_zero]
    | true =>
      simp only [finalExponents, Gate.matrix_power_zero, one_mul]
      rw [Gate.matrix_power_one_conjugates (by decide)]
      simp

theorem rotation_conjugates_none (axis : Pauli) (flip : Bool) :
    (rotation axis flip)ᴴ * readoutMatrix none flip * rotation axis flip = 1 := by
  have hone : readoutMatrix none flip = 1 := by
    simp [readoutMatrix, readout]
  rw [hone, mul_one, rotation_unitary]

end PauliEstimation.BasisChange
