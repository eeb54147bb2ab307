import Mathlib.Analysis.Matrix.Hermitian
import PauliEstimation.Proofs.Exact.Kronecker
import PauliEstimation.Proofs.Exact.PauliPower

namespace PauliEstimation

open Matrix

noncomputable def Pauli.standard : Pauli → Matrix (Fin 2) (Fin 2) ℂ
  | .x => !![0, 1; 1, 0]
  | .y => !![0, -Complex.I; Complex.I, 0]
  | .z => !![1, 0; 0, -1]

/-- The product of the listed factors on their sites, with the identity on every other site. -/
noncomputable def pauliProduct (n : Nat) (factors : List (Nat × Pauli)) :
    Matrix (Fin (2 ^ n)) (Fin (2 ^ n)) ℂ :=
  kronecker fun k : Fin n => (factors.lookup k.val).elim 1 Pauli.standard

theorem overBits_standard (axis : Pauli) : overBits axis.standard = axis.matrix := by
  have hzero : finTwoEquiv 0 = false := rfl
  have hone : finTwoEquiv 1 = true := rfl
  ext p q
  obtain ⟨p, rfl⟩ := finTwoEquiv.surjective p
  obtain ⟨q, rfl⟩ := finTwoEquiv.surjective q
  rw [overBits_apply]
  cases axis <;> fin_cases p <;> fin_cases q <;>
    simp [Pauli.standard, Pauli.matrix, hzero, hone]

theorem overBits_elim (factor : Option Pauli) :
    overBits (factor.elim 1 Pauli.standard) = siteOperator factor := by
  cases factor with
  | none => exact submatrix_one_equiv _
  | some axis => exact overBits_standard axis

theorem conjTranspose_siteOperator (factor : Option Pauli) :
    (siteOperator factor)ᴴ = siteOperator factor := by
  cases factor with
  | none => exact conjTranspose_one
  | some axis => exact axis.conjTranspose_matrix

theorem siteOperator_mul_self (factor : Option Pauli) :
    siteOperator factor * siteOperator factor = 1 := by
  cases factor with
  | none => exact Matrix.one_mul 1
  | some axis => exact axis.matrix_mul_self

variable {n : Nat}

theorem isHermitian_kron_siteOperator (factors : Fin n → Option Pauli) :
    (kron fun k => siteOperator (factors k)).IsHermitian := by
  rw [IsHermitian, conjTranspose_kron]
  simp only [conjTranspose_siteOperator]

theorem two_mul_abs_re_star_mul_le (a b : ℂ) :
    2 * |(star a * b).re| ≤ Complex.normSq a + Complex.normSq b := by
  have hre : (star a * b).re = a.re * b.re + a.im * b.im := by simp
  have hdiff := add_nonneg (sq_nonneg (a.re - b.re)) (sq_nonneg (a.im - b.im))
  have hsum := add_nonneg (sq_nonneg (a.re + b.re)) (sq_nonneg (a.im + b.im))
  rw [hre, Complex.normSq_apply, Complex.normSq_apply]
  rcases abs_cases (a.re * b.re + a.im * b.im) with ⟨habs, _⟩ | ⟨habs, _⟩
  · rw [habs]
    linarith
  · rw [habs]
    linarith

/-- The form of a vector and another one of the same norm is at most its squared norm. -/
theorem abs_re_dotProduct_le {ι : Type} [Fintype ι] {v w : ι → ℂ}
    (h : ∑ b, Complex.normSq (w b) = ∑ b, Complex.normSq (v b)) :
    |(star v ⬝ᵥ w).re| ≤ ∑ b, Complex.normSq (v b) := by
  have hre : (star v ⬝ᵥ w).re = ∑ b, (star (v b) * w b).re := Complex.re_sum _ _
  have hterms : ∑ b, 2 * |(star (v b) * w b).re| ≤
      ∑ b, (Complex.normSq (v b) + Complex.normSq (w b)) :=
    Finset.sum_le_sum fun b _ => two_mul_abs_re_star_mul_le (v b) (w b)
  have habs := Finset.abs_sum_le_sum_abs (fun b => (star (v b) * w b).re) Finset.univ
  rw [← Finset.mul_sum, Finset.sum_add_distrib, h] at hterms
  rw [hre]
  linarith

theorem abs_re_form_le (factors : Fin n → Option Pauli) (v : (Fin n → Bool) → ℂ) :
    |(star v ⬝ᵥ ((kron fun k => siteOperator (factors k)) *ᵥ v)).re| ≤
      ∑ b, Complex.normSq (v b) := by
  have hunitary : ∀ k, (siteOperator (factors k))ᴴ * siteOperator (factors k) = 1 := by
    intro k
    rw [conjTranspose_siteOperator, siteOperator_mul_self]
  exact abs_re_dotProduct_le (norm_kron_mulVec hunitary v)

/-- With no site listed twice, the order of the list does not matter for what is found. -/
theorem lookup_perm {α : Type} {xs ys : List (Nat × α)} (hn : (xs.map Prod.fst).Nodup)
    (h : ys.Perm xs) (k : Nat) : ys.lookup k = xs.lookup k := by
  have hn' : (ys.map Prod.fst).Nodup := (h.map _).nodup_iff.mpr hn
  by_cases hk : k ∈ xs.map Prod.fst
  · obtain ⟨⟨_, a⟩, ha, rfl⟩ := List.mem_map.mp hk
    rw [lookup_of_mem hn ha, lookup_of_mem hn' (h.mem_iff.mpr ha)]
  · rw [lookup_eq_none_of_notMem hk,
      lookup_eq_none_of_notMem (mt (h.map Prod.fst).mem_iff.mp hk)]

namespace Mps

variable {psi : Mps ℝ} {factors : List (Nat × Pauli)}

noncomputable def ket (psi : Mps ℝ) : Fin (2 ^ psi.size) → ℂ :=
  fun i => psi.amplitude (bitsOf psi.size i)

theorem form_pauliProduct (psi : Mps ℝ) (factors : List (Nat × Pauli)) :
    star psi.ket ⬝ᵥ (pauliProduct psi.size factors *ᵥ psi.ket) = star psi.amplitude ⬝ᵥ
      (kron (fun k : Fin psi.size => siteOperator (factors.lookup k.val)) *ᵥ psi.amplitude) := by
  have hform := form_kronecker
    (fun k : Fin psi.size => (factors.lookup k.val).elim 1 Pauli.standard) psi.amplitude
  simp only [overBits_elim] at hform
  exact hform

theorem ket_norm (psi : Mps ℝ) : star psi.ket ⬝ᵥ psi.ket =
    ((∑ b : Fin psi.size → Bool, Complex.normSq (psi.amplitude b) : ℝ) : ℂ) := by
  have hone := form_one psi.ket
  rw [Matrix.one_mulVec] at hone
  rw [hone]
  exact congrArg _ ((bitString psi.size).sum_comp fun b => Complex.normSq (psi.amplitude b))

theorem form_re (psi : Mps ℝ) (factors : List (Nat × Pauli)) :
    ((star psi.ket ⬝ᵥ (pauliProduct psi.size factors *ᵥ psi.ket)).re : ℂ) =
      star psi.ket ⬝ᵥ (pauliProduct psi.size factors *ᵥ psi.ket) := by
  have him := (isHermitian_kron_siteOperator fun k : Fin psi.size =>
    factors.lookup k.val).im_star_dotProduct_mulVec_self psi.amplitude
  rw [form_pauliProduct]
  exact Complex.ext rfl him.symm

/-- The expectation of a product of Pauli factors on distinct sites is `⟨ψ|P|ψ⟩ / ⟨ψ|ψ⟩`, with `P`
the Kronecker product of their matrices and identities, the first site being the most significant;
it is zero for the zero vector. The sum that it is read off is real, the expectation is between
minus one and one, and the order of the factors does not matter. -/
theorem pauliExpectation_is_form_over_norm (psi : Mps ℝ) (factors : List (Nat × Pauli))
    (h : psi.WellFormed) (hn : (factors.map Prod.fst).Nodup)
    (hlt : ∀ f ∈ factors, f.1 < psi.size) :
    let form := star psi.ket ⬝ᵥ (pauliProduct psi.size factors *ᵥ psi.ket)
    let sum := (pauliSums psi.stateVector psi.size factors).2
    psi.stateVector.size = 2 ^ psi.size ∧
      (∀ i : Fin (2 ^ psi.size), (psi.stateVector.getD i 0).toComplex = psi.ket i) ∧
      (psi.pauliExpectation factors : ℂ) = form / (star psi.ket ⬝ᵥ psi.ket) ∧
      (psi.ket = 0 → psi.pauliExpectation factors = 0) ∧
      sum.toComplex = form ∧ sum.im = 0 ∧
      -1 ≤ psi.pauliExpectation factors ∧ psi.pauliExpectation factors ≤ 1 ∧
      ∀ factors' : List (Nat × Pauli), factors'.Perm factors →
        psi.pauliExpectation factors' = psi.pauliExpectation factors := by
  intro form sum
  have hvalue := pauliExpectation_eq h rfl hn hlt
  have hform : sum.toComplex = form :=
    (pauliSums_stateVector h hn hlt).2.trans (form_pauliProduct psi factors).symm
  have hreal := form_re psi factors
  have hbound := abs_re_form_le (fun k : Fin psi.size => factors.lookup k.val) psi.amplitude
  have hquotient : (psi.pauliExpectation factors : ℂ) = form / (star psi.ket ⬝ᵥ psi.ket) := by
    rw [hvalue, Complex.ofReal_div, ← form_pauliProduct, hreal, ket_norm]
  have habs : |psi.pauliExpectation factors| ≤ 1 := by
    have hnonneg := (abs_nonneg _).trans hbound
    rw [hvalue, abs_div, abs_of_nonneg hnonneg]
    exact div_le_one_of_le₀ hbound hnonneg
  refine ⟨size_stateVector h, fun i => toComplex_stateVector h i.isLt, hquotient, fun hzero => ?_,
    hform, ?_, (abs_le.mp habs).1, (abs_le.mp habs).2, fun factors' hperm => ?_⟩
  · rw [hzero, star_zero, zero_dotProduct, div_zero] at hquotient
    exact Complex.ofReal_eq_zero.mp hquotient
  · have him := congrArg Complex.im (hform.trans hreal.symm)
    rwa [Complex.ofReal_im] at him
  · have hn' := (hperm.map Prod.fst).nodup_iff.mpr hn
    have hlt' : ∀ f ∈ factors', f.1 < psi.size := fun f hf => hlt f (hperm.mem_iff.mp hf)
    rw [hvalue, pauliExpectation_eq h rfl hn' hlt']
    simp only [lookup_perm hn hperm]

/-- Two qubits with the amplitudes one for `00` and `2i` for `11`. -/
noncomputable def phasedPair : Mps ℝ :=
  ⟨[Tensor.ofFn 1 2 2 fun _ p r => if p = r then 1 else 0,
    Tensor.ofFn 2 2 1 fun l p _ => if l = p then (if p = 0 then 1 else ⟨0, 1 + 1⟩) else 0]⟩

theorem wellFormed_phasedPair : phasedPair.WellFormed := by
  refine ⟨rfl, rfl, Nat.two_pos, ?_, rfl, rfl, Nat.one_pos, ?_, rfl⟩
  · simp [Tensor.ofFn]
  · simp [Tensor.ofFn]

theorem amplitude_phasedPair (p q : Bool) : phasedPair.amplitude ![p, q] =
    if p = q then (if p then 2 * Complex.I else 1) else 0 := by
  have hright : ∀ (l phys r : Nat) (f : Nat → Nat → Nat → Amplitude ℝ),
      (Tensor.ofFn l phys r f).right = r := fun _ _ _ _ => rfl
  have htwice : (⟨0, 1 + 1⟩ : Amplitude ℝ).toComplex = 2 * Complex.I := by
    apply Complex.ext <;> norm_num
  have hchain : phasedPair.amplitude ![p, q] = chainAmplitude phasedPair.sites [p, q] 0 := rfl
  rw [hchain]
  simp only [phasedPair, chainAmplitude, hright, Finset.sum_range_succ, Finset.range_zero,
    Finset.sum_empty, mul_one, zero_add]
  rw [Tensor.entry_ofFn _ Nat.one_pos p.toNat_lt Nat.two_pos,
    Tensor.entry_ofFn _ Nat.one_pos p.toNat_lt Nat.one_lt_two,
    Tensor.entry_ofFn _ Nat.two_pos q.toNat_lt Nat.one_pos,
    Tensor.entry_ofFn _ Nat.one_lt_two q.toNat_lt Nat.one_pos]
  cases p <;> cases q <;> simp [htwice]

theorem pauliExpectation_phasedPair :
    phasedPair.pauliExpectation [(1, .y), (0, .x)] = 4 / 5 := by
  have hsize : phasedPair.size = 2 := rfl
  have hnodup : ([(1, .y), (0, .x)] : List (Nat × Pauli)).map Prod.fst |>.Nodup := by decide
  have hvalue := pauliExpectation_eq wellFormed_phasedPair hsize hnodup (by decide)
  have hflip : ∀ p q, (fun k : Fin 2 => xor (![p, q] k)
      (siteInverts ([(1, Pauli.y), (0, .x)].lookup k.val))) = ![!p, !q] := by
    intro p q
    funext k
    fin_cases k
    · exact Bool.xor_true p
    · exact Bool.xor_true q
  have hphase : ∀ p q, ∏ k : Fin 2, sitePhase ([(1, Pauli.y), (0, .x)].lookup k.val) (![p, q] k) =
      (factorPhase .x p).toComplex * (factorPhase .y q).toComplex := fun p q =>
    Fin.prod_univ_two _
  rw [Matrix.dotProduct_mulVec, dotProduct, sum_twoBits, sum_twoBits] at hvalue
  simp only [vecMul_kron_siteOperator, hflip, hphase, Pi.star_apply, amplitude_phasedPair,
    Fintype.sum_bool] at hvalue
  rw [hvalue]
  norm_num [factorPhase, Complex.normSq_apply]

/-- The phase of one amplitude that only the right sign of `Y` turns into a positive value. -/
theorem pauliExpectation_is_form_over_norm_phased :
    let factors : List (Nat × Pauli) := [(1, .y), (0, .x)]
    phasedPair.WellFormed ∧ (factors.map Prod.fst).Nodup ∧ (∀ f ∈ factors, f.1 < phasedPair.size) ∧
      star phasedPair.ket ⬝ᵥ (pauliProduct 2 factors *ᵥ phasedPair.ket) /
        (star phasedPair.ket ⬝ᵥ phasedPair.ket) = 4 / 5 ∧
      (pauliSums phasedPair.stateVector 2 factors).2.im = 0 ∧
      phasedPair.pauliExpectation [(0, .x), (1, .y)] = 4 / 5 := by
  intro factors
  have hnodup : (factors.map Prod.fst).Nodup := by decide
  have hlt : ∀ f ∈ factors, f.1 < phasedPair.size := by decide
  obtain ⟨-, -, hquotient, -, -, him, -, -, hperm⟩ :=
    pauliExpectation_is_form_over_norm phasedPair factors wellFormed_phasedPair hnodup hlt
  refine ⟨wellFormed_phasedPair, hnodup, hlt, hquotient.symm.trans ?_, him, ?_⟩
  · rw [pauliExpectation_phasedPair]
    norm_num
  · rw [hperm _ (List.Perm.swap ..), pauliExpectation_phasedPair]

end Mps

end PauliEstimation
