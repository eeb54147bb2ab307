import PauliEstimation.Proofs.Exact.Dense
import PauliEstimation.Proofs.Exact.Product

namespace PauliEstimation

open Matrix

noncomputable def Gate.matrix (u : Gate ℝ 2) : Matrix Bool Bool ℂ :=
  Matrix.of fun p q => (u.entry p.toNat q.toNat).toComplex

theorem Gate.matrix_apply (u : Gate ℝ 2) (p q : Bool) :
    u.matrix p q = (u.entry p.toNat q.toNat).toComplex := rfl

theorem Tensor.toComplex_entry_rotate {a : Tensor ℝ} (u : Gate ℝ 2) {l r : Nat} (p : Bool)
    (hl : l < a.left) (hp : a.phys = 2) (hr : r < a.right) :
    ((a.rotate u).entry l p.toNat r).toComplex =
      ∑ q : Bool, u.matrix p q * (a.entry l q.toNat r).toComplex := by
  rw [rotate, entry_ofFn _ hl (by rw [hp]; exact p.toNat_lt) hr, Fintype.sum_bool, add_comm]
  simp [Gate.matrix_apply]

namespace Mps

theorem chainAmplitude_set_rotate {sites : List (Tensor ℝ)} {bond k l : Nat} {a : Tensor ℝ}
    {bits : List Bool} {p : Bool} (u : Gate ℝ 2) (h : IsChain bond sites)
    (ha : sites[k]? = some a) (hp : bits[k]? = some p) (hl : l < bond) :
    chainAmplitude (sites.set k (a.rotate u)) bits l =
      ∑ q : Bool, u.matrix p q * chainAmplitude sites (bits.set k q) l := by
  induction sites generalizing bond k l bits with
  | nil => simp at ha
  | cons b rest ih =>
    obtain ⟨hleft, hphys, _, _, hrest⟩ := h
    cases bits with
    | nil => simp at hp
    | cons p₀ bits =>
      cases k with
      | zero =>
        obtain rfl : b = a := by simpa using ha
        obtain rfl : p₀ = p := by simpa using hp
        simp only [List.set_cons_zero, chainAmplitude, Finset.mul_sum]
        rw [Finset.sum_comm]
        apply Finset.sum_congr rfl
        intro r hr
        rw [Tensor.toComplex_entry_rotate u p₀ (by omega) hphys (Finset.mem_range.mp hr),
          Finset.sum_mul]
        exact Finset.sum_congr rfl fun q _ => mul_assoc _ _ _
      | succ k =>
        simp only [List.set_cons_succ, chainAmplitude, Finset.mul_sum]
        rw [Finset.sum_comm]
        apply Finset.sum_congr rfl
        intro r hr
        rw [ih hrest (by simpa using ha) (by simpa using hp) (Finset.mem_range.mp hr),
          Finset.mul_sum]
        exact Finset.sum_congr rfl fun q _ => mul_left_comm _ _ _

theorem set_ofFn {n : Nat} (b : Fin n → Bool) (k : Fin n) (q : Bool) :
    (List.ofFn b).set k q = List.ofFn (Function.update b k q) := by
  apply List.ext_getElem
  · simp
  · intro i _ hi
    rw [List.getElem_set, List.getElem_ofFn, List.getElem_ofFn, Function.update_apply]
    simp only [Fin.ext_iff, eq_comm]

theorem amplitude_set_rotate {psi : Mps ℝ} {n : Nat} {k : Fin n} {a : Tensor ℝ} (u : Gate ℝ 2)
    (h : psi.WellFormed) (ha : psi.sites[k.val]? = some a) :
    (⟨psi.sites.set k (a.rotate u)⟩ : Mps ℝ).amplitude =
      kron (Function.update 1 k u.matrix) *ᵥ psi.amplitude := by
  funext b
  rw [kron_update_mulVec, amplitude,
    chainAmplitude_set_rotate (p := b k) u h ha (by simp) Nat.one_pos]
  simp only [set_ofFn, amplitude]

end Mps

end PauliEstimation
