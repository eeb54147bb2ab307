import Mathlib.Data.Complex.BigOperators
import Mathlib.LinearAlgebra.Matrix.ConjTranspose

namespace PauliEstimation

open Matrix

/-- The operator that acts on every qubit with its own matrix. -/
def kron {n : Nat} (m : Fin n → Matrix Bool Bool ℂ) : Matrix (Fin n → Bool) (Fin n → Bool) ℂ :=
  Matrix.of fun b c => ∏ k, m k (b k) (c k)

variable {n : Nat}

theorem kron_apply (m : Fin n → Matrix Bool Bool ℂ) (b c : Fin n → Bool) :
    kron m b c = ∏ k, m k (b k) (c k) := rfl

theorem kron_mul (m m' : Fin n → Matrix Bool Bool ℂ) :
    kron m * kron m' = kron fun k => m k * m' k := by
  ext b c
  simp only [Matrix.mul_apply, kron_apply]
  rw [Finset.prod_univ_sum, Fintype.piFinset_univ]
  exact Finset.sum_congr rfl fun d _ => Finset.prod_mul_distrib.symm

theorem conjTranspose_kron (m : Fin n → Matrix Bool Bool ℂ) :
    (kron m)ᴴ = kron fun k => (m k)ᴴ := by
  ext b c
  rw [Matrix.conjTranspose_apply, kron_apply, kron_apply]
  exact map_prod (starRingEnd ℂ) _ _

theorem kron_one : kron (1 : Fin n → Matrix Bool Bool ℂ) = 1 := by
  ext b c
  rw [kron_apply]
  by_cases h : b = c
  · subst h
    simp
  · obtain ⟨k, hk⟩ := Function.ne_iff.mp h
    rw [Matrix.one_apply_ne h]
    exact Finset.prod_eq_zero (Finset.mem_univ k) (Matrix.one_apply_ne hk)

/-- A matrix on one qubit alone mixes the two strings that differ there. -/
theorem kron_update_mulVec (k : Fin n) (u : Matrix Bool Bool ℂ) (v : (Fin n → Bool) → ℂ)
    (b : Fin n → Bool) :
    (kron (Function.update 1 k u) *ᵥ v) b =
      ∑ x, u (b k) x * v (Function.update b k x) := by
  simp only [Matrix.mulVec, dotProduct]
  symm
  apply Fintype.sum_of_injective (fun x => Function.update b k x)
    (Function.update_injective b k)
  · intro c hc
    have hne : ∃ j, j ≠ k ∧ b j ≠ c j := by
      by_contra hall
      push Not at hall
      apply hc
      refine ⟨c k, funext fun j => ?_⟩
      by_cases hj : j = k
      · subst hj
        exact Function.update_self ..
      · exact (Function.update_of_ne hj _ _).trans (hall j hj)
    obtain ⟨j, hj, hbc⟩ := hne
    have hzero : kron (Function.update 1 k u) b c = 0 := by
      apply Finset.prod_eq_zero (Finset.mem_univ j)
      rw [Function.update_of_ne hj]
      exact Matrix.one_apply_ne hbc
    rw [hzero, zero_mul]
  · intro x
    congr 1
    rw [kron_apply, Finset.prod_eq_single k]
    · rw [Function.update_self, Function.update_self]
    · intro j _ hj
      rw [Function.update_of_ne hj, Function.update_of_ne hj]
      show (1 : Matrix Bool Bool ℂ) (b j) (b j) = 1
      exact Matrix.one_apply_eq (b j)
    · simp

theorem kron_diagonal (d : Fin n → Bool → ℂ) :
    kron (fun k => diagonal (d k)) = diagonal fun b => ∏ k, d k (b k) := by
  ext b c
  rw [kron_apply]
  by_cases h : b = c
  · subst h
    simp
  · obtain ⟨k, hk⟩ := Function.ne_iff.mp h
    rw [Matrix.diagonal_apply_ne _ h]
    exact Finset.prod_eq_zero (Finset.mem_univ k) (Matrix.diagonal_apply_ne _ hk)

/-- The quadratic form of an operator in a transformed vector. -/
theorem form_mulVec {ι : Type} [Fintype ι] (k d : Matrix ι ι ℂ) (v : ι → ℂ) :
    star (k *ᵥ v) ⬝ᵥ (d *ᵥ (k *ᵥ v)) = star v ⬝ᵥ ((kᴴ * d * k) *ᵥ v) := by
  rw [Matrix.star_mulVec, ← Matrix.dotProduct_mulVec, Matrix.mulVec_mulVec, Matrix.mulVec_mulVec,
    Matrix.mul_assoc]

theorem form_diagonal {ι : Type} [Fintype ι] [DecidableEq ι] (d : ι → ℂ) (v : ι → ℂ) :
    star v ⬝ᵥ (diagonal d *ᵥ v) = ∑ b, (Complex.normSq (v b) : ℂ) * d b := by
  apply Finset.sum_congr rfl
  intro b _
  rw [Matrix.mulVec_diagonal, Complex.normSq_eq_conj_mul_self, Pi.star_apply, Complex.star_def]
  ring

theorem form_one {ι : Type} [Fintype ι] [DecidableEq ι] (v : ι → ℂ) :
    star v ⬝ᵥ ((1 : Matrix ι ι ℂ) *ᵥ v) = ((∑ b, Complex.normSq (v b) : ℝ) : ℂ) := by
  rw [← Matrix.diagonal_one, form_diagonal, Complex.ofReal_sum]
  simp

/-- A product of quantities read off the bits after a product of operators is the quadratic form of
the quantities turned back. -/
theorem sum_normSq_kron_mulVec (m : Fin n → Matrix Bool Bool ℂ) (d : Fin n → Bool → ℝ)
    (v : (Fin n → Bool) → ℂ) :
    ((∑ b, Complex.normSq ((kron m *ᵥ v) b) * ∏ k, d k (b k) : ℝ) : ℂ) =
      star v ⬝ᵥ
        (kron (fun k => (m k)ᴴ * diagonal (fun bit => (d k bit : ℂ)) * m k) *ᵥ v) := by
  have hdiagonal : diagonal (fun b => ∏ k, (d k (b k) : ℂ)) =
      kron fun k => diagonal fun bit => (d k bit : ℂ) :=
    (kron_diagonal fun k bit => (d k bit : ℂ)).symm
  rw [← kron_mul, ← kron_mul, ← conjTranspose_kron, ← hdiagonal, ← form_mulVec, form_diagonal]
  push_cast
  rfl

/-- Operators that commute with the quantities keep their mean. -/
theorem sum_normSq_kron_mulVec_eq {m : Fin n → Matrix Bool Bool ℂ} {d : Fin n → Bool → ℝ}
    (h : ∀ k, (m k)ᴴ * diagonal (fun bit => (d k bit : ℂ)) * m k =
      diagonal fun bit => (d k bit : ℂ)) (v : (Fin n → Bool) → ℂ) :
    ∑ b, Complex.normSq ((kron m *ᵥ v) b) * ∏ k, d k (b k) =
      ∑ b, Complex.normSq (v b) * ∏ k, d k (b k) := by
  apply Complex.ofReal_injective
  rw [sum_normSq_kron_mulVec]
  simp only [h, kron_diagonal, form_diagonal]
  push_cast
  rfl

/-- A product of unitary operators keeps the norm. -/
theorem norm_kron_mulVec {m : Fin n → Matrix Bool Bool ℂ} (hm : ∀ k, (m k)ᴴ * m k = 1)
    (v : (Fin n → Bool) → ℂ) :
    ∑ b, Complex.normSq ((kron m *ᵥ v) b) = ∑ b, Complex.normSq (v b) := by
  simpa using sum_normSq_kron_mulVec_eq (d := fun _ _ => 1) (by simpa using hm) v

end PauliEstimation
