import Mathlib.Tactic.Module
import PauliEstimation.Proofs.Exact.OneQubit
import PauliEstimation.Proofs.Exact.PauliProduct

namespace PauliEstimation

open Matrix

namespace Amplitude

theorem star_phase_mul (t : ℝ) : star (phase t).toComplex * (phase t).toComplex = 1 := by
  rw [toComplex_phase, Complex.star_def, ← Complex.exp_conj, ← Complex.exp_add]
  simp

theorem toComplex_phase_neg (t : ℝ) : (phase (-t)).toComplex = star (phase t).toComplex := by
  apply Complex.ext
  · simp [phase, Scalar.cosPi]
  · simp [phase, Scalar.sinPi]

theorem toComplex_phase_zero : (phase (0 : ℝ)).toComplex = 1 := by
  rw [toComplex_phase]
  simp

theorem toComplex_phase_one : (phase (1 : ℝ)).toComplex = -1 := by
  rw [toComplex_phase, mul_one, Complex.exp_pi_mul_I]

theorem toComplex_phase_half : (phase (Scalar.half : ℝ)).toComplex = Complex.I := by
  have hpi : Real.pi * (Scalar.half : ℝ) = Real.pi / 2 := by
    rw [Scalar.half_real]
    ring
  rw [toComplex_phase, hpi, Complex.exp_mul_I, ← Complex.ofReal_cos, ← Complex.ofReal_sin]
  simp

end Amplitude

namespace Pauli

theorem conjTranspose_matrix (axis : Pauli) : axis.matrixᴴ = axis.matrix := by
  ext p q
  cases axis <;> cases p <;> cases q <;> simp [matrix]

theorem matrix_mul_self (axis : Pauli) : axis.matrix * axis.matrix = 1 := by
  ext p q
  cases axis <;> cases p <;> cases q <;> simp [matrix, mul_apply]

theorem matrix_anticommute {a b : Pauli} (h : a ≠ b) :
    b.matrix * a.matrix = -(a.matrix * b.matrix) := by
  ext p q
  revert h
  cases a <;> cases b <;> cases p <;> cases q <;> simp [matrix, mul_apply]

theorem matrix_z_mul_x : z.matrix * x.matrix = Complex.I • y.matrix := by
  ext p q
  cases p <;> cases q <;> simp [matrix, mul_apply]

theorem matrix_z_mul_y : z.matrix * y.matrix = -Complex.I • x.matrix := by
  ext p q
  cases p <;> cases q <;> simp [matrix, mul_apply]

end Pauli

namespace Gate

/-- A power is a combination of the identity and the operator. -/
theorem matrix_power (axis : Pauli) (t : ℝ) :
    (power axis t).matrix =
      ((1 + (Amplitude.phase t).toComplex) / 2) • (1 : Matrix Bool Bool ℂ) +
        ((1 - (Amplitude.phase t).toComplex) / 2) • axis.matrix := by
  ext p q
  cases axis <;> cases p <;> cases q <;>
    simp [matrix_apply, entry, power, ofEntries, Scalar.half_real, Pauli.matrix] <;> ring

theorem matrix_power_zero (axis : Pauli) : (power axis (0 : ℝ)).matrix = 1 := by
  rw [matrix_power, Amplitude.toComplex_phase_zero]
  module

theorem conjTranspose_matrix_power (axis : Pauli) (t : ℝ) :
    (power axis t).matrixᴴ =
      ((1 + star (Amplitude.phase t).toComplex) / 2) • (1 : Matrix Bool Bool ℂ) +
        ((1 - star (Amplitude.phase t).toComplex) / 2) • axis.matrix := by
  rw [matrix_power, conjTranspose_add, conjTranspose_smul, conjTranspose_smul, conjTranspose_one,
    Pauli.conjTranspose_matrix]
  simp only [star_div₀, star_add, star_sub, star_one, star_ofNat]

theorem matrix_power_neg (axis : Pauli) (t : ℝ) :
    (power axis (-t)).matrix = (power axis t).matrixᴴ := by
  rw [conjTranspose_matrix_power, matrix_power, Amplitude.toComplex_phase_neg]

theorem matrix_power_neg_one (axis : Pauli) :
    (power axis (-1 : ℝ)).matrix = (power axis (1 : ℝ)).matrix := by
  rw [matrix_power, matrix_power, Amplitude.toComplex_phase_neg, Amplitude.toComplex_phase_one,
    star_neg, star_one]

theorem matrix_power_unitary (axis : Pauli) (t : ℝ) :
    (power axis t).matrixᴴ * (power axis t).matrix = 1 := by
  have hg := Amplitude.star_phase_mul t
  rw [conjTranspose_matrix_power, matrix_power]
  generalize star (Amplitude.phase t).toComplex = g' at hg ⊢
  generalize (Amplitude.phase t).toComplex = g at hg ⊢
  calc
    _ = ((1 + g' * g) / 2) • (1 : Matrix Bool Bool ℂ) + ((1 - g' * g) / 2) • axis.matrix := by
      simp only [add_mul, mul_add, smul_mul_smul_comm, mul_one, one_mul, Pauli.matrix_mul_self]
      module
    _ = 1 := by
      rw [hg]
      module

/-- A power of one Pauli operator turns another one about its axis. -/
theorem matrix_power_conjugates {a b : Pauli} (h : a ≠ b) (t : ℝ) :
    (power a t).matrixᴴ * b.matrix * (power a t).matrix =
      ((star (Amplitude.phase t).toComplex + (Amplitude.phase t).toComplex) / 2) • b.matrix +
        ((star (Amplitude.phase t).toComplex - (Amplitude.phase t).toComplex) / 2) •
          (b.matrix * a.matrix) := by
  have hba := Pauli.matrix_anticommute h
  have haba : a.matrix * b.matrix * a.matrix = -b.matrix := by
    rw [mul_assoc, hba, mul_neg, ← mul_assoc, Pauli.matrix_mul_self, one_mul]
  rw [conjTranspose_matrix_power, matrix_power]
  simp only [add_mul, mul_add, mul_one, one_mul, smul_mul_assoc, mul_smul_comm, haba, hba]
  module

theorem matrix_power_half_conjugates {a b : Pauli} (h : a ≠ b) :
    (power a (Scalar.half : ℝ)).matrixᴴ * b.matrix * (power a Scalar.half).matrix =
      -Complex.I • (b.matrix * a.matrix) := by
  rw [matrix_power_conjugates h, Amplitude.toComplex_phase_half, Complex.star_def, Complex.conj_I]
  module

theorem matrix_power_neg_half_conjugates {a b : Pauli} (h : a ≠ b) :
    (power a (-Scalar.half : ℝ)).matrixᴴ * b.matrix * (power a (-Scalar.half)).matrix =
      Complex.I • (b.matrix * a.matrix) := by
  rw [matrix_power_conjugates h, Amplitude.toComplex_phase_neg, Amplitude.toComplex_phase_half,
    star_star, Complex.star_def, Complex.conj_I]
  module

theorem matrix_power_one_conjugates {a b : Pauli} (h : a ≠ b) :
    (power a (1 : ℝ)).matrixᴴ * b.matrix * (power a 1).matrix = -b.matrix := by
  rw [matrix_power_conjugates h, Amplitude.toComplex_phase_one, star_neg, star_one]
  module

end Gate

end PauliEstimation
