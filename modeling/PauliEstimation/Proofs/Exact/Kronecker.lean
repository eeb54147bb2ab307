import Mathlib.LinearAlgebra.Matrix.Kronecker
import PauliEstimation.Proofs.Exact.BasisIndex
import PauliEstimation.Proofs.Exact.Product

namespace PauliEstimation

open Matrix Kronecker

/-- An index as its first bit and the number that the others spell. -/
def leadingBit (n : Nat) : Fin 2 × Fin (2 ^ n) ≃ Fin (2 ^ (n + 1)) :=
  finProdFinEquiv.trans (finCongr Nat.pow_succ'.symm)

theorem leadingBit_val {n : Nat} (p : Fin 2) (i : Fin (2 ^ n)) :
    (leadingBit n (p, i)).val = 2 ^ n * p + i :=
  Nat.add_comm (i : Nat) (2 ^ n * p)

noncomputable def kronecker : {n : Nat} → (Fin n → Matrix (Fin 2) (Fin 2) ℂ) →
    Matrix (Fin (2 ^ n)) (Fin (2 ^ n)) ℂ
  | 0, _ => 1
  | n + 1, m => reindex (leadingBit n) (leadingBit n) (m 0 ⊗ₖ kronecker fun k => m k.succ)

theorem bitsOf_leadingBit_zero {n : Nat} (p : Fin 2) (i : Fin (2 ^ n)) :
    Mps.bitsOf (n + 1) (leadingBit n (p, i)) 0 = finTwoEquiv p := by
  have hbit : (p : Nat).testBit 0 = finTwoEquiv p := by
    fin_cases p <;> rfl
  rw [Mps.bitsOf, Mps.siteBit, leadingBit_val, Nat.testBit_two_pow_mul_add _ i.isLt,
    if_neg (by simp)]
  simpa using hbit

theorem bitsOf_leadingBit_succ {n : Nat} (p : Fin 2) (i : Fin (2 ^ n)) (k : Fin n) :
    Mps.bitsOf (n + 1) (leadingBit n (p, i)) k.succ = Mps.bitsOf n i k := by
  have hpos : n + 1 - 1 - (k.succ : Nat) = n - 1 - k := by
    rw [Fin.val_succ]
    omega
  have hlt : n - 1 - (k : Nat) < n := by
    have hk := k.isLt
    omega
  rw [Mps.bitsOf, Mps.siteBit, leadingBit_val, hpos, Nat.testBit_two_pow_mul_add _ i.isLt,
    if_pos hlt]
  rfl

def overBits (m : Matrix (Fin 2) (Fin 2) ℂ) : Matrix Bool Bool ℂ :=
  reindex finTwoEquiv finTwoEquiv m

theorem overBits_apply (m : Matrix (Fin 2) (Fin 2) ℂ) (p q : Fin 2) :
    overBits m (finTwoEquiv p) (finTwoEquiv q) = m p q := by
  rw [overBits, reindex_apply, submatrix_apply, Equiv.symm_apply_apply, Equiv.symm_apply_apply]

theorem kronecker_apply {n : Nat} (m : Fin n → Matrix (Fin 2) (Fin 2) ℂ) (i j : Fin (2 ^ n)) :
    kronecker m i j = kron (fun k => overBits (m k)) (Mps.bitsOf n i) (Mps.bitsOf n j) := by
  -- the leading bits select the entry of the first matrix, the others that of the rest
  induction n with
  | zero =>
    have hij : i = j := Fin.ext (by omega)
    rw [kronecker, hij, one_apply_eq, kron_apply, Fin.prod_univ_zero]
  | succ n ih =>
    obtain ⟨⟨p, i⟩, rfl⟩ := (leadingBit n).surjective i
    obtain ⟨⟨q, j⟩, rfl⟩ := (leadingBit n).surjective j
    rw [kronecker, reindex_apply, submatrix_apply, Equiv.symm_apply_apply, Equiv.symm_apply_apply,
      kroneckerMap_apply, ih, kron_apply, kron_apply, Fin.prod_univ_succ]
    simp only [bitsOf_leadingBit_zero, bitsOf_leadingBit_succ, overBits_apply]

noncomputable def bitString (n : Nat) : Fin (2 ^ n) ≃ (Fin n → Bool) :=
  Equiv.ofBijective _ (Mps.bitsOf_bijective n)

theorem kronecker_eq_submatrix {n : Nat} (m : Fin n → Matrix (Fin 2) (Fin 2) ℂ) :
    kronecker m = (kron fun k => overBits (m k)).submatrix (bitString n) (bitString n) := by
  ext i j
  exact kronecker_apply m i j

/-- A quadratic form over basis indices is the one over strings of bits. -/
theorem form_kronecker {n : Nat} (m : Fin n → Matrix (Fin 2) (Fin 2) ℂ)
    (v : (Fin n → Bool) → ℂ) :
    star (v ∘ bitString n) ⬝ᵥ (kronecker m *ᵥ (v ∘ bitString n)) =
      star v ⬝ᵥ ((kron fun k => overBits (m k)) *ᵥ v) := by
  have hback : (v ∘ bitString n) ∘ (bitString n).symm = v := by
    funext b
    simp
  rw [kronecker_eq_submatrix, submatrix_mulVec_equiv, hback]
  exact comp_equiv_dotProduct_comp_equiv (star v) _ (bitString n)

end PauliEstimation
