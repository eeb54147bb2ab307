import Mathlib.Algebra.BigOperators.Field
import PauliEstimation.Proofs.Exact.Amplitude
import PauliEstimation.Proofs.Exact.BasisIndex
import PauliEstimation.Proofs.Mps.Shape

namespace PauliEstimation.Mps

/-- The amplitude of a string of bits in a chain entered at one value of its first bond. -/
noncomputable def chainAmplitude : List (Tensor ℝ) → List Bool → Nat → ℂ
  | a :: rest, p :: bits, l =>
    ∑ r ∈ Finset.range a.right, (a.entry l p.toNat r).toComplex * chainAmplitude rest bits r
  | _, _, _ => 1

noncomputable def amplitude (psi : Mps ℝ) {n : Nat} (b : Fin n → Bool) : ℂ :=
  chainAmplitude psi.sites (List.ofFn b) 0

theorem toComplex_extend {partials : Array (Amplitude ℝ)} {bond c j r : Nat} {a : Tensor ℝ}
    (hb : 0 < bond) (hs : partials.size = c * bond) (hj : j < c * 2) (hr : r < a.right) :
    ((extend partials bond a).getD (j * a.right + r) 0).toComplex =
      ∑ l ∈ Finset.range a.left, (partials.getD (j / 2 * bond + l) 0).toComplex *
        (a.entry l (j % 2) r).toComplex := by
  have hlt : j * a.right + r < partials.size / bond * 2 * a.right := by
    rw [hs, Nat.mul_div_cancel c hb]
    exact rowMajor_lt hj hr
  unfold extend
  rw [Array.getD_eq_getD_getElem?, Array.getElem?_ofFn, dif_pos hlt, Option.getD_some]
  simp only [rowMajor_div hr, rowMajor_mod hr]
  rw [Amplitude.toComplex_fold (g := fun l => (partials.getD (j / 2 * bond + l) 0).toComplex *
    (a.entry l (j % 2) r).toComplex), Amplitude.toComplex_zero, zero_add]
  intro l acc
  split
  next h => rw [Amplitude.beq_zero_iff.mp h, zero_mul, add_zero]
  next => rw [Amplitude.toComplex_add, Amplitude.toComplex_mul]

theorem toNat_testBit (i m : Nat) : (i.testBit m).toNat = i / 2 ^ m % 2 := by
  rw [Nat.testBit_eq_decide_div_mod_eq]
  rcases Nat.mod_two_eq_zero_or_one (i / 2 ^ m) with h | h <;> simp [h]

/-- The expansion continues every partial amplitude through the rest of the chain. -/
theorem toComplex_extendAll {sites : List (Tensor ℝ)} {bond c : Nat}
    {partials : Array (Amplitude ℝ)} (h : IsChain bond sites) (hb : 0 < bond)
    (hs : partials.size = c * bond) {i : Nat} (hi : i < c * 2 ^ sites.length) :
    ((extendAll partials bond sites).getD i 0).toComplex =
      ∑ l ∈ Finset.range bond, (partials.getD (i / 2 ^ sites.length * bond + l) 0).toComplex *
        chainAmplitude sites (List.ofFn (bitsOf sites.length i)) l := by
  induction sites generalizing bond c partials with
  | nil =>
    obtain rfl : bond = 1 := h
    simp [extendAll, chainAmplitude]
  | cons a rest ih =>
    obtain ⟨hl, _, hr, _, hrest⟩ := h
    have hentry := ih hrest hr (size_extend (a := a) hb hs)
    have hpow : c * 2 ^ (a :: rest).length = c * 2 * 2 ^ rest.length := by
      rw [List.length_cons, Nat.pow_succ, Nat.mul_assoc, Nat.mul_comm (2 ^ _)]
    rw [hpow] at hi
    have hj : i / 2 ^ rest.length < c * 2 := Nat.div_lt_of_lt_mul (by rwa [Nat.mul_comm])
    have hhalf : i / 2 ^ rest.length / 2 = i / 2 ^ (rest.length + 1) := by
      rw [Nat.div_div_eq_div_mul, Nat.pow_succ]
    rw [extendAll, hentry hi, List.length_cons, ofFn_bitsOf_succ]
    have hterm : ∀ r ∈ Finset.range a.right,
        ((extend partials bond a).getD (i / 2 ^ rest.length * a.right + r) 0).toComplex *
            chainAmplitude rest (List.ofFn (bitsOf rest.length i)) r =
          ∑ l ∈ Finset.range bond,
            (partials.getD (i / 2 ^ (rest.length + 1) * bond + l) 0).toComplex *
              ((a.entry l (i.testBit rest.length).toNat r).toComplex *
                chainAmplitude rest (List.ofFn (bitsOf rest.length i)) r) := by
      intro r hr
      rw [toComplex_extend hb hs hj (Finset.mem_range.mp hr), hl, hhalf, toNat_testBit,
        Finset.sum_mul]
      exact Finset.sum_congr rfl fun l _ => mul_assoc _ _ _
    rw [Finset.sum_congr rfl hterm, Finset.sum_comm]
    exact Finset.sum_congr rfl fun l _ => (Finset.mul_sum _ _ _).symm

/-- The dense expansion lists the amplitudes of all strings of bits. -/
theorem toComplex_stateVector {psi : Mps ℝ} (h : psi.WellFormed) {i : Nat}
    (hi : i < 2 ^ psi.size) :
    (psi.stateVector.getD i 0).toComplex = psi.amplitude (bitsOf psi.size i) := by
  have hone : (#[1] : Array (Amplitude ℝ)).size = 1 * 1 := rfl
  have hentry := toComplex_extendAll h Nat.one_pos hone (i := i) (by simpa [size] using hi)
  rw [stateVector, hentry]
  simp [Nat.div_eq_of_lt (show i < 2 ^ psi.sites.length from hi), amplitude, size]

/-- A sum over the dense expansion is one over all strings of bits. -/
theorem sum_normSq_stateVector {psi : Mps ℝ} {n : Nat} (h : psi.WellFormed) (hsize : psi.size = n)
    (f : (Fin n → Bool) → ℝ) :
    ∑ i ∈ Finset.range (2 ^ n), (psi.stateVector.getD i 0).normSq * f (bitsOf n i) =
      ∑ b, Complex.normSq (psi.amplitude b) * f b := by
  subst hsize
  rw [← sum_bitsOf psi.size fun b => Complex.normSq (psi.amplitude b) * f b]
  apply Finset.sum_congr rfl
  intro i hi
  rw [Amplitude.normSq_eq, toComplex_stateVector h (Finset.mem_range.mp hi)]

theorem norm_stateVector {psi : Mps ℝ} {n : Nat} (h : psi.WellFormed) (hsize : psi.size = n) :
    ∑ i ∈ Finset.range (2 ^ n), (psi.stateVector.getD i 0).normSq =
      ∑ b : Fin n → Bool, Complex.normSq (psi.amplitude b) := by
  simpa using sum_normSq_stateVector h hsize fun _ => 1

/-- The probability of a basis index among the outcomes of a joint measurement. -/
noncomputable def basisWeight (psi : Mps ℝ) (i : Nat) : ℝ :=
  (psi.stateVector.getD i 0).normSq /
    ∑ j ∈ Finset.range (2 ^ psi.size), (psi.stateVector.getD j 0).normSq

theorem sum_basisWeight_mul {psi : Mps ℝ} {n : Nat} (h : psi.WellFormed) (hsize : psi.size = n)
    (f : (Fin n → Bool) → ℝ) :
    ∑ i ∈ Finset.range (2 ^ n), psi.basisWeight i * f (bitsOf n i) =
      (∑ b, Complex.normSq (psi.amplitude b) * f b) /
        ∑ b : Fin n → Bool, Complex.normSq (psi.amplitude b) := by
  rw [← sum_normSq_stateVector h hsize, Finset.sum_div]
  apply Finset.sum_congr rfl
  intro i _
  rw [basisWeight, hsize, norm_stateVector h hsize, div_mul_eq_mul_div]

theorem chainAmplitude_zero (bits : List Bool) :
    chainAmplitude (List.replicate bits.length zeroSite) bits 0 =
      if ∀ p ∈ bits, p = false then 1 else 0 := by
  induction bits with
  | nil => simp [chainAmplitude]
  | cons p rest ih =>
    have hentry : zeroSite.entry 0 p.toNat 0 = if p.toNat = 0 then (1 : Amplitude ℝ) else 0 :=
      Tensor.entry_ofFn _ Nat.one_pos p.toNat_lt Nat.one_pos
    have hright : (zeroSite : Tensor ℝ).right = 1 := rfl
    rw [List.length_cons, List.replicate_succ, chainAmplitude, hright, Finset.sum_range_one, ih,
      hentry]
    cases p with
    | false => simp
    | true => simp

/-- The state of all zeros has one amplitude. -/
theorem amplitude_zero {n : Nat} (b : Fin n → Bool) :
    (zero n).amplitude b = if b = fun _ => false then 1 else 0 := by
  have hchain := chainAmplitude_zero (List.ofFn b)
  rw [List.length_ofFn] at hchain
  rw [amplitude, zero, hchain]
  simp only [List.forall_mem_ofFn_iff, funext_iff]

theorem norm_zero (n : Nat) :
    ∑ i ∈ Finset.range (2 ^ n), ((zero (R := ℝ) n).stateVector.getD i 0).normSq = 1 := by
  rw [norm_stateVector (wellFormed_zero n) (by simp [zero, size])]
  simp [amplitude_zero, apply_ite Complex.normSq]

end PauliEstimation.Mps
