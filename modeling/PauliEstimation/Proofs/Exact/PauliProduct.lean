import PauliEstimation.Mps.Expectation
import PauliEstimation.Proofs.Exact.Dense
import PauliEstimation.Proofs.Exact.Product
import PauliEstimation.Proofs.Traversal

namespace PauliEstimation

open Matrix

noncomputable def Pauli.matrix : Pauli → Matrix Bool Bool ℂ
  | .x => Matrix.of fun p q => if p = q then 0 else 1
  | .y => Matrix.of fun p q => if p = q then 0 else if p then Complex.I else -Complex.I
  | .z => Matrix.of fun p q => if p = q then (if p then -1 else 1) else 0

/-- The operator on a qubit that has a Pauli factor, or none. -/
noncomputable def siteOperator : Option Pauli → Matrix Bool Bool ℂ
  | some axis => axis.matrix
  | none => 1

def siteInverts : Option Pauli → Bool
  | some axis => decide (axis ≠ .z)
  | none => false

noncomputable def sitePhase : Option Pauli → Bool → ℂ
  | some axis, q => (Mps.factorPhase axis q).toComplex
  | none, _ => 1

theorem siteOperator_apply (factor : Option Pauli) (p q : Bool) :
    siteOperator factor p q = if p = xor q (siteInverts factor) then sitePhase factor q else 0 := by
  have hneg : (⟨-1, 0⟩ : Amplitude ℝ).toComplex = -1 :=
    Complex.ext rfl (by simp)
  match factor with
  | none => cases p <;> cases q <;> simp [siteOperator, siteInverts, sitePhase]
  | some .x => cases p <;> cases q <;>
      simp [siteOperator, siteInverts, sitePhase, Pauli.matrix, Mps.factorPhase]
  | some .y => cases p <;> cases q <;>
      simp [siteOperator, siteInverts, sitePhase, Pauli.matrix, Mps.factorPhase]
  | some .z => cases p <;> cases q <;>
      simp [siteOperator, siteInverts, sitePhase, Pauli.matrix, Mps.factorPhase, hneg]

/-- A product of Pauli factors maps every string to one other string, with a phase. -/
theorem kron_siteOperator {n : Nat} (factors : Fin n → Option Pauli) (b c : Fin n → Bool) :
    kron (fun k => siteOperator (factors k)) b c =
      if b = fun k => xor (c k) (siteInverts (factors k)) then ∏ k, sitePhase (factors k) (c k)
      else 0 := by
  simp only [kron_apply, siteOperator_apply]
  rw [Finset.prod_ite_zero]
  simp only [Finset.mem_univ, forall_const, funext_iff]

theorem vecMul_kron_siteOperator {n : Nat} (v : (Fin n → Bool) → ℂ) (factors : Fin n → Option Pauli)
    (c : Fin n → Bool) :
    (v ᵥ* kron fun k => siteOperator (factors k)) c =
      v (fun k => xor (c k) (siteInverts (factors k))) * ∏ k, sitePhase (factors k) (c k) := by
  simp only [Matrix.vecMul, dotProduct, kron_siteOperator, mul_ite, mul_zero]
  rw [Finset.sum_ite_eq' Finset.univ, if_pos (Finset.mem_univ _)]

/-- A product over listed sites is one over all sites. -/
theorem prod_map_eq_prod_lookup {α M : Type} [CommMonoid M] {n : Nat} (f : Nat × α → M)
    {xs : List (Nat × α)} (hn : (xs.map Prod.fst).Nodup) (hlt : ∀ x ∈ xs, x.1 < n) :
    (xs.map f).prod = ∏ k : Fin n, (xs.lookup k.val).elim 1 fun a => f (k, a) := by
  induction xs with
  | nil => simp
  | cons x xs ih =>
    obtain ⟨k, a⟩ := x
    obtain ⟨hk, hn⟩ := List.nodup_cons.mp hn
    have hkn : k < n := hlt (k, a) (by simp)
    have hnone := lookup_eq_none_of_notMem hk
    rw [List.map_cons, List.prod_cons, ih hn fun y hy => hlt y (List.mem_cons_of_mem _ hy)]
    rw [← Finset.mul_prod_erase _ _ (Finset.mem_univ (⟨k, hkn⟩ : Fin n)),
      ← Finset.mul_prod_erase Finset.univ
        (fun j : Fin n => (((k, a) :: xs).lookup j.val).elim 1 fun a => f (j, a))
        (Finset.mem_univ (⟨k, hkn⟩ : Fin n))]
    simp only [hnone, Option.elim_none, one_mul, List.lookup_cons_self, Option.elim_some]
    congr 1
    apply Finset.prod_congr rfl
    intro j hj
    have hjk : ((j : Nat) == k) = false := by
      have := Finset.ne_of_mem_erase hj
      simpa [Fin.ext_iff] using this
    rw [List.lookup_cons, hjk]

namespace Mps

theorem toComplex_productPhase {n index : Nat} {factors : List (Nat × Pauli)}
    (hn : (factors.map Prod.fst).Nodup) (hlt : ∀ f ∈ factors, f.1 < n) :
    (productPhase n factors index : Amplitude ℝ).toComplex =
      ∏ k : Fin n, sitePhase (factors.lookup k.val) (bitsOf n index k) := by
  have hfold : ∀ w : Amplitude ℝ, (factors.foldl
      (fun w f => w * factorPhase f.2 (siteBit n index f.1)) w).toComplex =
        w.toComplex *
          (factors.map fun f => sitePhase (some f.2) (siteBit n index f.1)).prod := by
    clear hn hlt
    induction factors with
    | nil => simp
    | cons f rest ih =>
      intro w
      rw [List.foldl_cons, ih, Amplitude.toComplex_mul, List.map_cons, List.prod_cons, mul_assoc]
      rfl
  rw [productPhase, hfold, Amplitude.toComplex_one, one_mul, prod_map_eq_prod_lookup _ hn hlt]
  apply Finset.prod_congr rfl
  intro k _
  cases factors.lookup k.val with
  | none => rfl
  | some axis => rfl

theorem flipMask_lt {n : Nat} {factors : List (Nat × Pauli)} (hlt : ∀ f ∈ factors, f.1 < n) :
    flipMask n factors < 2 ^ n := by
  have hfold : ∀ m, m < 2 ^ n → factors.foldl
      (fun m f => if f.2 = .z then m else m ||| 1 <<< (n - 1 - f.1)) m < 2 ^ n := by
    induction factors with
    | nil => exact fun m hm => hm
    | cons f rest ih =>
      intro m hm
      rw [List.foldl_cons]
      apply ih fun g hg => hlt g (List.mem_cons_of_mem _ hg)
      split
      next => exact hm
      next =>
        have hf : f.1 < n := hlt f (by simp)
        apply Nat.or_lt_two_pow hm
        rw [Nat.one_shiftLeft]
        exact Nat.pow_lt_pow_right (by omega) (by omega)
  exact hfold 0 (Nat.two_pow_pos n)

/-- The mask has the bits of the sites whose factor inverts. -/
theorem bitsOf_flipMask {n : Nat} {factors : List (Nat × Pauli)}
    (hn : (factors.map Prod.fst).Nodup) (hlt : ∀ f ∈ factors, f.1 < n) (k : Fin n) :
    bitsOf n (flipMask n factors) k = siteInverts (factors.lookup k.val) := by
  have hfold : ∀ m, siteBit n (factors.foldl
      (fun m f => if f.2 = .z then m else m ||| 1 <<< (n - 1 - f.1)) m) k =
        (siteBit n m k || siteInverts (factors.lookup k.val)) := by
    induction factors with
    | nil => simp [siteInverts]
    | cons f rest ih =>
      intro m
      obtain ⟨site, axis⟩ := f
      obtain ⟨hsite, hn⟩ := List.nodup_cons.mp hn
      have hlt' : site < n := hlt (site, axis) (by simp)
      rw [List.foldl_cons, ih hn fun g hg => hlt g (List.mem_cons_of_mem _ hg), List.lookup_cons]
      by_cases hk : k.val = site
      · rw [hk, lookup_eq_none_of_notMem hsite, beq_self_eq_true, ← hk]
        by_cases hz : axis = .z
        · simp [hz, siteInverts]
        · simp [hz, siteInverts, siteBit, Nat.testBit_or, Nat.one_shiftLeft]
      · have hpos : n - 1 - site ≠ n - 1 - k.val := by omega
        rw [beq_eq_false_iff_ne.mpr hk]
        by_cases hz : axis = .z
        · simp [hz]
        · simp [hz, siteBit, Nat.testBit_or, Nat.one_shiftLeft, hpos]
  rw [bitsOf, flipMask, hfold]
  simp [siteBit]

theorem pauliSums_eq (v : Array (Amplitude ℝ)) (n : Nat) (factors : List (Nat × Pauli)) :
    (pauliSums v n factors).1 = ∑ k ∈ Finset.range v.size, (v.getD k 0).normSq ∧
      (pauliSums v n factors).2.toComplex = ∑ k ∈ Finset.range v.size,
        star (v.getD (k ^^^ flipMask n factors) 0).toComplex *
          (productPhase n factors k : Amplitude ℝ).toComplex * (v.getD k 0).toComplex := by
  unfold pauliSums
  dsimp only
  induction v.size with
  | zero => simp
  | succ size ih =>
    obtain ⟨hnorm, hsum⟩ := ih
    rw [Nat.fold_succ, Finset.sum_range_succ, Finset.sum_range_succ, ← hnorm, ← hsum]
    split
    next h => exact ⟨rfl, by rw [Amplitude.beq_zero_iff.mp h, mul_zero, add_zero]⟩
    next => simp

/-- Over the dense expansion the sums are the squared norm and the quadratic form of the product. -/
theorem pauliSums_stateVector {psi : Mps ℝ} {factors : List (Nat × Pauli)} (h : psi.WellFormed)
    (hn : (factors.map Prod.fst).Nodup) (hlt : ∀ f ∈ factors, f.1 < psi.size) :
    (pauliSums psi.stateVector psi.size factors).1 =
        ∑ b : Fin psi.size → Bool, Complex.normSq (psi.amplitude b) ∧
      (pauliSums psi.stateVector psi.size factors).2.toComplex = star psi.amplitude ⬝ᵥ
        (kron (fun k : Fin psi.size => siteOperator (factors.lookup k.val)) *ᵥ psi.amplitude) := by
  obtain ⟨hnorm, hsum⟩ := pauliSums_eq psi.stateVector psi.size factors
  rw [size_stateVector h] at hnorm hsum
  refine ⟨hnorm.trans (norm_stateVector h rfl), ?_⟩
  rw [hsum, Matrix.dotProduct_mulVec, dotProduct, ← sum_bitsOf]
  apply Finset.sum_congr rfl
  intro k hk
  have hk := Finset.mem_range.mp hk
  have hmask : bitsOf psi.size (k ^^^ flipMask psi.size factors) =
      fun j => xor (bitsOf psi.size k j) (siteInverts (factors.lookup j.val)) := by
    rw [bitsOf_xor]
    funext j
    rw [bitsOf_flipMask hn hlt]
  rw [toComplex_stateVector h hk,
    toComplex_stateVector h (Nat.xor_lt_two_pow hk (flipMask_lt hlt)), hmask,
    toComplex_productPhase hn hlt, vecMul_kron_siteOperator]
  rfl

/-- The expectation of a Pauli product is its quadratic form in the amplitudes over their norm. -/
theorem pauliExpectation_eq {psi : Mps ℝ} {n : Nat} {factors : List (Nat × Pauli)}
    (h : psi.WellFormed) (hsize : psi.size = n) (hn : (factors.map Prod.fst).Nodup)
    (hlt : ∀ f ∈ factors, f.1 < n) :
    psi.pauliExpectation factors =
      (star psi.amplitude ⬝ᵥ
        (kron (fun k : Fin n => siteOperator (factors.lookup k.val)) *ᵥ psi.amplitude)).re /
        ∑ b : Fin n → Bool, Complex.normSq (psi.amplitude b) := by
  subst hsize
  obtain ⟨hnorm, hform⟩ := pauliSums_stateVector h hn hlt
  unfold pauliExpectation denseExpectation
  dsimp only
  rw [hnorm, ← hform]
  split
  next hz => rw [eq_of_beq hz, div_zero]
  next => rfl

end Mps

end PauliEstimation
