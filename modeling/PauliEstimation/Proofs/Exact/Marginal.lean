import PauliEstimation.Proofs.Exact.Environment
import PauliEstimation.Proofs.Exact.Outcome
import PauliEstimation.Proofs.Exact.PauliProduct

namespace PauliEstimation.Mps

open Matrix

/-- The squared amplitudes of the basis indices that have a bit on a site. -/
noncomputable def bitWeight (psi : Mps ℝ) (k : Nat) (p : Bool) : ℝ :=
  ∑ i ∈ Finset.range (2 ^ psi.size) with siteBit psi.size i k = p,
    (psi.stateVector.getD i 0).normSq

/-- The probability that a joint measurement has a bit on a site. -/
noncomputable def bitProbability (psi : Mps ℝ) (k : Nat) (p : Bool) : ℝ :=
  ∑ i ∈ Finset.range (2 ^ psi.size) with siteBit psi.size i k = p, psi.basisWeight i

variable {psi : Mps ℝ}

theorem bitWeight_eq {n : Nat} (h : psi.WellFormed) (hsize : psi.size = n) (k : Fin n) (p : Bool) :
    psi.bitWeight k p = ∑ b : Fin n → Bool,
      Complex.normSq (psi.amplitude b) * (if b k = p then 1 else 0) := by
  subst hsize
  rw [← sum_normSq_stateVector h rfl fun b => if b k = p then 1 else 0, bitWeight,
    Finset.sum_filter]
  refine Finset.sum_congr rfl fun i _ => ?_
  rw [mul_ite, mul_one, mul_zero]
  rfl

theorem bitProbability_eq (psi : Mps ℝ) (k : Nat) (p : Bool) :
    psi.bitProbability k p = psi.bitWeight k p /
      ∑ i ∈ Finset.range (2 ^ psi.size), (psi.stateVector.getD i 0).normSq :=
  (Finset.sum_div _ _ _).symm

theorem bitWeight_nonneg (psi : Mps ℝ) (k : Nat) (p : Bool) : 0 ≤ psi.bitWeight k p :=
  Finset.sum_nonneg fun _ _ => normSq_nonneg _

theorem bitWeight_add (psi : Mps ℝ) (k : Nat) :
    psi.bitWeight k false + psi.bitWeight k true =
      ∑ i ∈ Finset.range (2 ^ psi.size), (psi.stateVector.getD i 0).normSq := by
  rw [← Finset.sum_filter_add_sum_filter_not _ fun i => siteBit psi.size i k = false]
  simp only [bitWeight, Bool.not_eq_false]

/-- The weights between the environments of a site. -/
theorem siteWeights?_eq_ok (h : psi.WellFormed) {k : Nat} (hk : k < psi.size) :
    psi.siteWeights? k = .ok (psi.bitWeight k false, psi.bitWeight k true) := by
  have ha : psi.sites[k]? = some psi.sites[k] := List.getElem?_eq_getElem hk
  have h₀ := outcomeWeight_site (k := ⟨k, hk⟩) h ha false
  have h₁ := outcomeWeight_site (k := ⟨k, hk⟩) h ha true
  rw [← bitWeight_eq h rfl ⟨k, hk⟩] at h₀ h₁
  unfold siteWeights? site?
  rw [ha, ← h₀, ← h₁]
  rfl

theorem positivePart_of_nonneg {x : ℝ} (h : 0 ≤ x) : positivePart x = x := by
  unfold positivePart
  split
  next => rfl
  next hx => exact le_antisymm h (not_lt.mp hx)

/-- The probabilities that a site reads are the marginals of the joint distribution. -/
theorem siteProbabilities?_eq_ok (h : psi.WellFormed) {k : Nat} (hk : k < psi.size)
    (hnorm : ∑ i ∈ Finset.range (2 ^ psi.size), (psi.stateVector.getD i 0).normSq ≠ 0) :
    psi.siteProbabilities? k = .ok (psi.bitProbability k false, psi.bitProbability k true) := by
  have hne : ¬ (psi.bitWeight k false + psi.bitWeight k true == 0) = true :=
    fun hz => hnorm (bitWeight_add psi k ▸ eq_of_beq hz)
  unfold siteProbabilities?
  rw [siteWeights?_eq_ok h hk]
  simp only [bind, Except.bind, pure, Except.pure, positivePart_of_nonneg (bitWeight_nonneg _ _ _)]
  rw [if_neg hne, bitProbability_eq, bitProbability_eq, ← bitWeight_add psi k]

/-- The expectation of `Z` on a site weighs every string by the sign of its bit. -/
theorem pauliExpectation_z (h : psi.WellFormed) (k : Fin psi.size) :
    psi.pauliExpectation [(k.val, .z)] =
      (∑ b : Fin psi.size → Bool, Complex.normSq (psi.amplitude b) * (if b k then -1 else 1)) /
        ∑ b : Fin psi.size → Bool, Complex.normSq (psi.amplitude b) := by
  have hsite : ∀ j : Fin psi.size, siteOperator ([(k.val, Pauli.z)].lookup j.val) =
      diagonal fun p => if j = k then (if p then -1 else 1) else 1 := by
    intro j
    by_cases hj : j = k
    · subst hj
      rw [List.lookup_cons_self]
      ext p q
      cases p <;> cases q <;> simp [siteOperator, Pauli.matrix]
    · have hne : (j.val == k.val) = false := by simpa [Fin.ext_iff] using hj
      simp [List.lookup_cons, hne, hj, siteOperator]
  rw [pauliExpectation_eq (n := psi.size) h rfl (by simp) (by simp)]
  simp only [hsite]
  rw [kron_diagonal, form_diagonal]
  simp only [Finset.prod_ite_eq', Finset.mem_univ, if_true]
  congr 1
  rw [Complex.re_sum]
  refine Finset.sum_congr rfl fun b _ => ?_
  cases b k with
  | false => simp
  | true => simp

/-- The bias of a site is the expectation of `Z` there. -/
theorem bitProbability_sub (h : psi.WellFormed) {k : Nat} (hk : k < psi.size) :
    psi.bitProbability k false - psi.bitProbability k true = psi.pauliExpectation [(k, .z)] := by
  have hz := pauliExpectation_z h ⟨k, hk⟩
  have hweight := bitWeight_eq h rfl ⟨k, hk⟩
  dsimp only at hz hweight
  rw [hz, bitProbability_eq, bitProbability_eq, norm_stateVector h rfl, ← sub_div, hweight, hweight,
    ← Finset.sum_sub_distrib]
  congr 1
  refine Finset.sum_congr rfl fun b _ => ?_
  cases b ⟨k, hk⟩ with
  | false => simp
  | true => simp

theorem weightBefore_stateVector (h : psi.WellFormed) :
    weightBefore psi.stateVector psi.stateVector.size =
      ∑ i ∈ Finset.range (2 ^ psi.size), (psi.stateVector.getD i 0).normSq := by
  rw [weightBefore, size_stateVector h]

/-- The cumulative table draws every basis index with its probability: an even draw selects the
index in whose stretch of the unit interval it lies. -/
theorem outcome_draw_iff (h : psi.WellFormed)
    (hnorm : ∑ i ∈ Finset.range (2 ^ psi.size), (psi.stateVector.getD i 0).normSq ≠ 0) {u : ℝ}
    (h₀ : 0 ≤ u) (h₁ : u < 1) {i : Nat} (hi : i < 2 ^ psi.size) :
    let table := cumulative psi.stateVector
    outcome table (u * table.getD (table.size - 1) 0) = i ↔
      ∑ j ∈ Finset.range i, psi.basisWeight j ≤ u ∧
        u < ∑ j ∈ Finset.range (i + 1), psi.basisWeight j := by
  intro table
  have hsize := size_stateVector h
  have hlast : table.getD (table.size - 1) 0 =
      weightBefore psi.stateVector psi.stateVector.size := by
    obtain ⟨htable, hentries⟩ := cumulative_spec psi.stateVector
    rw [htable, hentries _ (by omega), Nat.sub_add_cancel (by omega)]
  have hpos : 0 < weightBefore psi.stateVector psi.stateVector.size := by
    rw [weightBefore_stateVector h]
    exact lt_of_le_of_ne (Finset.sum_nonneg fun _ _ => normSq_nonneg _) hnorm.symm
  have hsum : ∀ m, ∑ j ∈ Finset.range m, psi.basisWeight j =
      weightBefore psi.stateVector m / weightBefore psi.stateVector psi.stateVector.size := by
    intro m
    rw [weightBefore_stateVector h]
    exact (Finset.sum_div _ _ _).symm
  rw [hlast, hsum, hsum, div_le_iff₀ hpos, lt_div_iff₀ hpos]
  exact outcome_eq_iff _ (by omega) (mul_nonneg h₀ hpos.le) (mul_lt_of_lt_one_left hpos h₁)

/-- The environments of a site, the dense amplitudes and the table of the shots read one and the
same distribution. -/
theorem site_readouts_agree (psi : Mps ℝ) (k : Nat) (h : psi.WellFormed) (hk : k < psi.size) :
    psi.siteWeights? k = .ok (psi.bitWeight k false, psi.bitWeight k true) ∧
      (∀ p, positivePart (psi.bitWeight k p) = psi.bitWeight k p) ∧
      (∑ i ∈ Finset.range (2 ^ psi.size), (psi.stateVector.getD i 0).normSq ≠ 0 →
        psi.siteProbabilities? k = .ok (psi.bitProbability k false, psi.bitProbability k true) ∧
        psi.bitProbability k false - psi.bitProbability k true = psi.pauliExpectation [(k, .z)] ∧
        let table := cumulative psi.stateVector
        ∀ u, 0 ≤ u → u < 1 → ∀ i < 2 ^ psi.size,
          (outcome table (u * table.getD (table.size - 1) 0) = i ↔
            ∑ j ∈ Finset.range i, psi.basisWeight j ≤ u ∧
              u < ∑ j ∈ Finset.range (i + 1), psi.basisWeight j)) :=
  ⟨siteWeights?_eq_ok h hk, fun p => positivePart_of_nonneg (bitWeight_nonneg psi k p),
    fun hnorm => ⟨siteProbabilities?_eq_ok h hk hnorm, bitProbability_sub h hk,
      fun _ h₀ h₁ _ hi => outcome_draw_iff h hnorm h₀ h₁ hi⟩⟩

/-- Two qubits with the amplitudes one for `00` and two for `11`. -/
noncomputable def unevenPair : Mps ℝ :=
  ⟨[Tensor.ofFn 1 2 2 fun _ p r => if p = r then 1 else 0,
    Tensor.ofFn 2 2 1 fun l p _ => if l = p then .ofReal (Scalar.ofNat (p + 1)) else 0]⟩

theorem wellFormed_unevenPair : unevenPair.WellFormed := by
  refine ⟨rfl, rfl, Nat.two_pos, ?_, rfl, rfl, Nat.one_pos, ?_, rfl⟩
  · simp [Tensor.ofFn]
  · simp [Tensor.ofFn]

theorem amplitude_unevenPair (p q : Bool) :
    chainAmplitude unevenPair.sites [p, q] 0 = if p = q then (if p then 2 else 1) else 0 := by
  have hright : ∀ (l phys r : Nat) (f : Nat → Nat → Nat → Amplitude ℝ),
      (Tensor.ofFn l phys r f).right = r := fun _ _ _ _ => rfl
  simp only [unevenPair, chainAmplitude, hright, Finset.sum_range_succ, Finset.range_zero,
    Finset.sum_empty, mul_one, zero_add]
  rw [Tensor.entry_ofFn _ Nat.one_pos p.toNat_lt Nat.two_pos,
    Tensor.entry_ofFn _ Nat.one_pos p.toNat_lt Nat.one_lt_two,
    Tensor.entry_ofFn _ Nat.two_pos q.toNat_lt Nat.one_pos,
    Tensor.entry_ofFn _ Nat.one_lt_two q.toNat_lt Nat.one_pos]
  have hcount : ∀ n : Nat, (Scalar.ofNat n : ℝ) = n := fun _ => rfl
  cases p <;> cases q <;> simp [hcount, one_add_one_eq_two]

theorem bitWeight_unevenPair (p : Bool) :
    unevenPair.bitWeight 1 p = if p then 4 else 1 := by
  have hamplitude : ∀ p q, unevenPair.amplitude ![p, q] =
      if p = q then (if p then 2 else 1) else 0 :=
    amplitude_unevenPair
  have hsize : unevenPair.size = 2 := rfl
  have hweight := bitWeight_eq wellFormed_unevenPair hsize 1 p
  rw [sum_twoBits] at hweight
  refine Eq.trans hweight ?_
  simp only [hamplitude, Fintype.sum_bool]
  cases p <;> norm_num

theorem site_readouts_agree_uneven :
    unevenPair.WellFormed ∧ 1 < unevenPair.size ∧
      ∑ i ∈ Finset.range (2 ^ unevenPair.size), (unevenPair.stateVector.getD i 0).normSq ≠ 0 ∧
      unevenPair.siteProbabilities? 1 = .ok (1 / 5, 4 / 5) ∧
      unevenPair.pauliExpectation [(1, .z)] = -3 / 5 := by
  have hnorm : ∑ i ∈ Finset.range (2 ^ unevenPair.size),
      (unevenPair.stateVector.getD i 0).normSq = 5 := by
    rw [← bitWeight_add unevenPair 1, bitWeight_unevenPair, bitWeight_unevenPair]
    norm_num
  have hne : ∑ i ∈ Finset.range (2 ^ unevenPair.size),
      (unevenPair.stateVector.getD i 0).normSq ≠ 0 := by
    rw [hnorm]
    norm_num
  obtain ⟨_, _, hreads⟩ :=
    site_readouts_agree unevenPair 1 wellFormed_unevenPair Nat.one_lt_two
  obtain ⟨hprobabilities, hbias, _⟩ := hreads hne
  have hvalue : ∀ p, unevenPair.bitProbability 1 p = if p then 4 / 5 else 1 / 5 := by
    intro p
    rw [bitProbability_eq, hnorm, bitWeight_unevenPair]
    cases p <;> norm_num
  rw [hvalue, hvalue] at hprobabilities hbias
  refine ⟨wellFormed_unevenPair, Nat.one_lt_two, hne, hprobabilities, hbias.symm.trans ?_⟩
  norm_num

end PauliEstimation.Mps
