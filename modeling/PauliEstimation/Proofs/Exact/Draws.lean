import PauliEstimation.Proofs.Exact.Marginal
import PauliEstimation.Proofs.Register.Shots
import PauliEstimation.Svd.Reduction

namespace PauliEstimation

/-- Draws range from zero to one, both included. -/
theorem ofWord_mem (w : UInt64) : 0 ≤ (Scalar.ofWord w : ℝ) ∧ (Scalar.ofWord w : ℝ) ≤ 1 := by
  have hle : (w.toNat : ℝ) ≤ 18446744073709551615 := by
    have hlt := w.toNat_lt
    exact_mod_cast (by omega : w.toNat ≤ 18446744073709551615)
  exact ⟨div_nonneg (Nat.cast_nonneg _) (by norm_num), div_le_one_of_le₀ hle (by norm_num)⟩

theorem ofWord_last : (Scalar.ofWord 18446744073709551615 : ℝ) = 1 := by
  have hword : (18446744073709551615 : UInt64).toNat = 18446744073709551615 := by decide
  show (((18446744073709551615 : UInt64).toNat : ℕ) : ℝ) / 18446744073709551615 = 1
  rw [hword]
  norm_num

namespace Mps

theorem draws_mem {shots : Nat} {s : RandomStream} {u : ℝ} (h : u ∈ draws ℝ shots s) :
    0 ≤ u ∧ u ≤ 1 := by
  obtain ⟨s, rfl⟩ := RandomStream.exists_of_mem_repeated h
  exact ofWord_mem _

/-- Where the stretch of a basis index starts. -/
def stretchStart (table : Array ℝ) (i : Nat) : ℝ := if i = 0 then 0 else table.getD (i - 1) 0

section Table

variable {v : Array (Amplitude ℝ)} {x : ℝ}

theorem stretchStart_cumulative {i : Nat} (hi : i < v.size) :
    stretchStart (cumulative v) i = weightBefore v i := by
  unfold stretchStart
  cases i with
  | zero => simp [weightBefore]
  | succ i => exact (if_neg (Nat.succ_ne_zero i)).trans ((cumulative_spec v).2 i (by omega))

theorem outcome_lt (hv : 0 < v.size) : outcome (cumulative v) x < v.size := by
  have hsize := (cumulative_spec v).1
  unfold outcome
  omega

theorem normSq_pos_iff {a : Amplitude ℝ} : 0 < a.normSq ↔ a ≠ 0 := by
  rw [Amplitude.normSq_eq, Complex.normSq_pos, ← Amplitude.toComplex_zero,
    Amplitude.toComplex_injective.ne_iff]

/-- An index whose stretch holds a point has an amplitude. -/
theorem getD_ne_zero_of_stretch {i : Nat} (hle : weightBefore v i ≤ x)
    (hlt : x < weightBefore v (i + 1)) : v.getD i 0 ≠ 0 := by
  have hstep : weightBefore v (i + 1) = weightBefore v i + (v.getD i 0).normSq :=
    Finset.sum_range_succ _ _
  exact normSq_pos_iff.mp (by linarith)

end Table

section Draw

variable {psi : Mps ℝ} {u : ℝ}

theorem total_eq (h : psi.WellFormed) :
    psi.total = weightBefore psi.stateVector psi.stateVector.size := by
  have hsize := size_stateVector h
  have hpos := Nat.two_pow_pos psi.size
  obtain ⟨htable, hentries⟩ := cumulative_spec psi.stateVector
  rw [total, htable, hentries _ (by omega), Nat.sub_add_cancel (by omega)]

theorem total_pos (h : psi.WellFormed)
    (hnorm : ∑ i ∈ Finset.range (2 ^ psi.size), (psi.stateVector.getD i 0).normSq ≠ 0) :
    0 < psi.total := by
  rw [total_eq h, weightBefore_stateVector h]
  exact lt_of_le_of_ne (Finset.sum_nonneg fun _ _ => normSq_nonneg _) hnorm.symm

theorem drawn_lt (h : psi.WellFormed) : psi.drawn u < 2 ^ psi.size := by
  rw [← size_stateVector h]
  exact outcome_lt (size_stateVector h ▸ Nat.two_pow_pos _)

/-- A draw below one falls in the stretch of the index it selects. -/
theorem drawn_stretch (h : psi.WellFormed) (hpos : 0 < psi.total) (h₀ : 0 ≤ u) (h₁ : u < 1) :
    weightBefore psi.stateVector (psi.drawn u) ≤ u * psi.total ∧
      u * psi.total < weightBefore psi.stateVector (psi.drawn u + 1) := by
  have hend : u * psi.total < weightBefore psi.stateVector psi.stateVector.size :=
    total_eq h ▸ mul_lt_of_lt_one_left hpos h₁
  have hlt : psi.drawn u < psi.stateVector.size := size_stateVector h ▸ drawn_lt h
  exact (outcome_eq_iff _ hlt (mul_nonneg h₀ hpos.le) hend).mp rfl

/-- The draw of one selects the last index. -/
theorem drawn_one (h : psi.WellFormed) : psi.drawn 1 = 2 ^ psi.size - 1 := by
  rw [← size_stateVector h]
  exact outcome_end _ (by rw [one_mul, total_eq h])

/-- Every index that a draw selects has an end of its stretch in the table. -/
theorem getD_cumulative_drawn (h : psi.WellFormed) :
    (cumulative psi.stateVector).getD (psi.drawn u) 0 =
      weightBefore psi.stateVector (psi.drawn u + 1) :=
  (cumulative_spec _).2 _ (size_stateVector h ▸ drawn_lt h)

end Draw

/-- The rows of a sample are those of the indices that its draws select. A draw below one falls in the
stretch of its index, so that index has an amplitude. -/
theorem draws_select_amplitudes (psi : Mps ℝ) (h : psi.WellFormed)
    (hsize : psi.size ≤ maxDenseSites)
    (hnorm : ∑ i ∈ Finset.range (2 ^ psi.size), (psi.stateVector.getD i 0).normSq ≠ 0) :
    (∀ (sites : List Nat) (shots : Nat) (s : RandomStream), (∀ k ∈ sites, k < psi.size) →
      (∀ u ∈ draws ℝ shots s, 0 ≤ u ∧ u ≤ 1) ∧
      ∃ bits s', psi.sample? sites shots s = .ok (bits, s') ∧ bits.rows =
        BitMatrix.kept sites.length
          ((draws ℝ shots s).map fun u => shotRow psi.size sites (psi.drawn u))) ∧
    ∀ u : ℝ, 0 ≤ u → u < 1 →
      let table := cumulative psi.stateVector
      psi.drawn u < 2 ^ psi.size ∧ stretchStart table (psi.drawn u) ≤ u * psi.total ∧
        u * psi.total < table.getD (psi.drawn u) 0 ∧ psi.stateVector.getD (psi.drawn u) 0 ≠ 0 := by
  refine ⟨fun sites shots s hsites => ?_, ?_⟩
  · have hcan : psi.CanSample sites shots := ⟨hsize, fun _ => hsites⟩
    exact ⟨fun u => draws_mem, _, _, sample?_eq_sampled hcan s, rfl⟩
  intro u h₀ h₁ table
  obtain ⟨hle, hgt⟩ := drawn_stretch h (total_pos h hnorm) h₀ h₁
  rw [getD_cumulative_drawn h, stretchStart_cumulative (size_stateVector h ▸ drawn_lt h)]
  exact ⟨drawn_lt h, hle, hgt, getD_ne_zero_of_stretch hle hgt⟩

/-- Half of the range of two qubits in `|00⟩` is drawn as a state that has an amplitude, although the
table has its full height at every index. -/
theorem draws_select_amplitudes_zero :
    (zero (R := ℝ) 2).WellFormed ∧ (zero (R := ℝ) 2).size ≤ maxDenseSites ∧
      ∑ i ∈ Finset.range (2 ^ 2), ((zero (R := ℝ) 2).stateVector.getD i 0).normSq ≠ 0 ∧
      (0 : ℝ) ≤ 1 / 2 ∧ (1 / 2 : ℝ) < 1 ∧
      (zero (R := ℝ) 2).stateVector.getD ((zero (R := ℝ) 2).drawn (1 / 2)) 0 ≠ 0 := by
  have hwell := wellFormed_zero (R := ℝ) 2
  have hsize : (zero (R := ℝ) 2).size ≤ maxDenseSites := by decide
  have hnorm : ∑ i ∈ Finset.range (2 ^ 2), ((zero (R := ℝ) 2).stateVector.getD i 0).normSq ≠ 0 := by
    rw [norm_zero]
    exact one_ne_zero
  have h₀ : (0 : ℝ) ≤ 1 / 2 := by norm_num
  have h₁ : (1 / 2 : ℝ) < 1 := by norm_num
  obtain ⟨_, hdraws⟩ := draws_select_amplitudes (zero 2) hwell hsize hnorm
  obtain ⟨_, _, _, hpossible⟩ := hdraws (1 / 2) h₀ h₁
  exact ⟨hwell, hsize, hnorm, h₀, h₁, hpossible⟩

set_option maxRecDepth 100000 in
/-- The last word is the draw of one, which selects `1` in the state `|0⟩`. On floating numbers a draw
comes to the end of the range before that when the squared norm is the least number there is: two of
four shots of a multiple of `|0⟩` then show a one. -/
theorem last_draw_selects_no_amplitude :
    (let psi : Mps ℝ := zero 1
      let u : ℝ := Scalar.ofWord 18446744073709551615
      psi.WellFormed ∧ psi.size ≤ maxDenseSites ∧ psi.total = 1 ∧ u = 1 ∧ psi.drawn u = 1 ∧
        psi.stateVector.getD 1 0 = 0 ∧
        ¬u * psi.total < (cumulative psi.stateVector).getD (psi.drawn u) 0) ∧
    let small : Gate Float 2 := Gate.ofEntries ⟨2.2227587494850775e-162, 0⟩ 0 0 1
    (((zero 1).applyOne? 0 small).bind fun psi =>
      (psi.sample? [0] 4 (RandomStream.ofSeed (utf8 "seed"))).map fun e => e.1.rows) =
        .ok [[true], [true], [false], [false]] := by
  refine ⟨?_, by decide +kernel⟩
  intro psi u
  have hwell : psi.WellFormed := wellFormed_zero 1
  have htotal : psi.total = 1 := by
    rw [total_eq hwell, weightBefore_stateVector hwell]
    exact norm_zero 1
  have hone : u = 1 := ofWord_last
  have hdrawn : psi.drawn u = 1 := hone ▸ drawn_one hwell
  have hindices : (2 : Nat) ^ psi.size = 2 := rfl
  have hend : (cumulative psi.stateVector).getD (psi.drawn u) 0 = psi.total := by
    rw [getD_cumulative_drawn hwell, hdrawn, total_eq hwell, size_stateVector hwell, hindices]
  refine ⟨hwell, by decide, htotal, hone, hdrawn, ?_, ?_⟩
  · have hbits : bitsOf psi.size 1 ≠ fun _ => false := by
      intro h
      have hbit : bitsOf psi.size 1 ⟨0, Nat.one_pos⟩ = true := by decide
      rw [h] at hbit
      cases hbit
    apply Amplitude.toComplex_injective
    rw [toComplex_stateVector hwell (hindices ▸ Nat.one_lt_two), Amplitude.toComplex_zero]
    exact (amplitude_zero _).trans (if_neg hbits)
  · rw [hend, hone, one_mul]
    exact lt_irrefl _

end Mps

end PauliEstimation
