import PauliEstimation.Proofs.Exact.Dense

namespace PauliEstimation.Mps

/-- Bisection of a table that is ascending where it is searched: what stands before the position
found is at most `x`, and what stands from there on is above. -/
theorem bisect_spec {table : Array ℝ} {x : ℝ} {low width : Nat}
    (h : ∀ i j, i ≤ j → j < low + width → table.getD i 0 ≤ table.getD j 0) :
    low ≤ bisect table x low width ∧ bisect table x low width ≤ low + width ∧
      (∀ j, low ≤ j → j < bisect table x low width → table.getD j 0 ≤ x) ∧
      ∀ j, bisect table x low width ≤ j → j < low + width → x < table.getD j 0 := by
  fun_induction bisect table x low width with
  | case1 low => exact ⟨le_refl _, le_refl _, fun j _ _ => by omega, fun j _ _ => by omega⟩
  | case2 low width hw half hle ih =>
    obtain ⟨hlow, hhigh, hbelow, habove⟩ := ih fun i j hij hj => h i j hij (by omega)
    refine ⟨by omega, by omega, fun j hj hlt => ?_, fun j hj hlt => habove j hj (by omega)⟩
    by_cases hjm : j ≤ low + half
    · exact (h j (low + half) hjm (by omega)).trans hle
    · exact hbelow j (by omega) hlt
  | case3 low width hw half hle ih =>
    obtain ⟨hlow, hhigh, hbelow, habove⟩ := ih fun i j hij hj => h i j hij (by omega)
    refine ⟨hlow, by omega, hbelow, fun j hj hlt => ?_⟩
    by_cases hjm : j < low + half
    · exact habove j hj hjm
    · exact (not_le.mp hle).trans_le (h (low + half) j (by omega) hlt)

section Cumulative

variable (v : Array (Amplitude ℝ))

/-- The sum of the squared amplitudes before a basis index. -/
noncomputable def weightBefore (i : Nat) : ℝ := ∑ j ∈ Finset.range i, (v.getD j 0).normSq

theorem normSq_nonneg (a : Amplitude ℝ) : 0 ≤ a.normSq := Complex.normSq_nonneg a.toComplex

theorem weightBefore_mono : Monotone (weightBefore v) := fun _ _ h =>
  Finset.sum_le_sum_of_subset_of_nonneg (Finset.range_mono h) fun _ _ _ => normSq_nonneg _

theorem getD_push (table : Array ℝ) (x : ℝ) (i : Nat) :
    (table.push x).getD i 0 = if i = table.size then x else table.getD i 0 := by
  rw [Array.getD_eq_getD_getElem?, Array.getElem?_push, Array.getD_eq_getD_getElem?]
  split
  next => rfl
  next => rfl

/-- The cumulative table holds the running sums. -/
theorem cumulative_spec :
    (cumulative v).size = v.size ∧
      ∀ i < v.size, (cumulative v).getD i 0 = weightBefore v (i + 1) := by
  let motive : Nat → Array ℝ × ℝ → Prop := fun k acc =>
    acc.1.size = k ∧ acc.2 = weightBefore v k ∧
      ∀ i < k, acc.1.getD i 0 = weightBefore v (i + 1)
  suffices h : motive v.size (v.foldl (fun (acc : Array ℝ × ℝ) a =>
      (acc.1.push (acc.2 + a.normSq), acc.2 + a.normSq)) (#[], 0)) from ⟨h.1, h.2.2⟩
  refine Array.foldl_induction motive ⟨rfl, rfl, fun i hi => by omega⟩ ?_
  rintro k ⟨table, total⟩ ⟨hsize, htotal, hentries⟩
  dsimp only at hsize htotal hentries
  have hsum : total + v[k].normSq = weightBefore v (k + 1) := by
    rw [weightBefore, Finset.sum_range_succ, ← weightBefore, ← htotal]
    simp
  refine ⟨by simp [hsize], hsum, fun i hi => ?_⟩
  by_cases hik : i = k
  · rw [getD_push, if_pos (hik.trans hsize.symm), hik]
    exact hsum
  · rw [getD_push, if_neg fun h => hik (h.trans hsize)]
    exact hentries i (by omega)

/-- The cumulative table only depends on the squared amplitudes. -/
theorem cumulative_congr {v w : Array (Amplitude ℝ)} (hsize : v.size = w.size)
    (h : ∀ i < v.size, (v.getD i 0).normSq = (w.getD i 0).normSq) :
    cumulative v = cumulative w := by
  obtain ⟨hv, hventries⟩ := cumulative_spec v
  obtain ⟨hw, hwentries⟩ := cumulative_spec w
  refine Array.ext (by omega) fun i hi hi' => ?_
  have hsum : weightBefore v (i + 1) = weightBefore w (i + 1) :=
    Finset.sum_congr rfl fun j hj => h j (by have := Finset.mem_range.mp hj; omega)
  rw [← hventries i (by omega), ← hwentries i (by omega)] at hsum
  simpa [Array.getD, hi, hi'] using hsum

/-- The position found in the cumulative table parts the running sums that are at most `x` from those
above. -/
theorem bisect_cumulative (x : ℝ) :
    let m := bisect (cumulative v) x 0 (cumulative v).size
    m ≤ v.size ∧ (∀ j < m, weightBefore v (j + 1) ≤ x) ∧
      ∀ j, m ≤ j → j < v.size → x < weightBefore v (j + 1) := by
  obtain ⟨hsize, hentries⟩ := cumulative_spec v
  have hsorted : ∀ i j, i ≤ j → j < 0 + (cumulative v).size →
      (cumulative v).getD i 0 ≤ (cumulative v).getD j 0 := by
    intro i j hij hj
    rw [hentries i (by omega), hentries j (by omega)]
    exact weightBefore_mono v (by omega)
  obtain ⟨_, hhigh, hbelow, habove⟩ := bisect_spec (x := x) hsorted
  refine ⟨by omega, fun j hj => ?_, fun j hj hlt => ?_⟩
  · exact hentries j (by omega) ▸ hbelow j (Nat.zero_le j) hj
  · exact hentries j hlt ▸ habove j hj (by omega)

/-- A point of the range falls on the basis index in whose stretch it lies. -/
theorem outcome_eq_iff {i : Nat} {x : ℝ} (hi : i < v.size) (h₀ : 0 ≤ x)
    (h₁ : x < weightBefore v v.size) :
    outcome (cumulative v) x = i ↔ weightBefore v i ≤ x ∧ x < weightBefore v (i + 1) := by
  obtain ⟨hhigh, hbelow, habove⟩ := bisect_cumulative v x
  have hsize := (cumulative_spec v).1
  unfold outcome
  generalize bisect (cumulative v) x 0 (cumulative v).size = m at hhigh hbelow habove ⊢
  have hm : m < v.size := by
    by_contra hm
    have hlast := hbelow (v.size - 1) (by omega)
    rw [Nat.sub_add_cancel (by omega)] at hlast
    exact absurd h₁ (not_lt.mpr hlast)
  have hmin : min m ((cumulative v).size - 1) = m := by omega
  rw [hmin]
  constructor
  · rintro rfl
    refine ⟨?_, habove m (le_refl m) hm⟩
    cases m with
    | zero => simpa [weightBefore] using h₀
    | succ m => exact hbelow m (Nat.lt_succ_self m)
  · rintro ⟨hle, hlt⟩
    rcases Nat.lt_trichotomy m i with hmi | rfl | him
    · have hxm := habove m (le_refl m) hm
      exact absurd hle (not_le.mpr (hxm.trans_le (weightBefore_mono v hmi)))
    · rfl
    · exact absurd hlt (not_lt.mpr (hbelow i him))

/-- A point at the end of the range falls on the last index. -/
theorem outcome_end {x : ℝ} (h : weightBefore v v.size ≤ x) :
    outcome (cumulative v) x = v.size - 1 := by
  obtain ⟨hhigh, _, habove⟩ := bisect_cumulative v x
  have hsize := (cumulative_spec v).1
  unfold outcome
  generalize bisect (cumulative v) x 0 (cumulative v).size = m at hhigh habove ⊢
  have hm : v.size ≤ m := by
    by_contra hm
    have hlt := habove m (le_refl m) (by omega)
    exact absurd ((weightBefore_mono v (by omega)).trans h) (not_le.mpr hlt)
  omega

end Cumulative

end PauliEstimation.Mps
