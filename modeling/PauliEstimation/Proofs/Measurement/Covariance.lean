import Mathlib.Algebra.BigOperators.Ring.List
import Mathlib.Algebra.Order.Star.Real
import Mathlib.LinearAlgebra.Matrix.PosDef
import PauliEstimation.Measurement.Statistics
import PauliEstimation.Proofs.Exact.Amplitude

namespace PauliEstimation

open Matrix

theorem Scalar.sum_real (xs : List ℝ) : Scalar.sum xs = xs.sum := by
  show xs.foldl (· + ·) (-0) = xs.sum
  rw [neg_zero, List.sum_eq_foldl]

/-- All products of two values of one row add up to the square of the row's sum. -/
theorem sum_products {α β : Type} (keys : List α) (rows : List β) (f : α → β → ℝ) :
    (keys.map fun a => (keys.map fun b => (rows.map fun r => f a r * f b r).sum).sum).sum =
      (rows.map fun r => (keys.map fun a => f a r).sum ^ 2).sum := by
  induction rows with
  | nil => simp
  | cons r rest ih =>
    simp only [List.map_cons, List.sum_cons, List.sum_map_add, ih, List.sum_map_mul_left,
      List.sum_map_mul_right, sq]

namespace Statistics

theorem foldl_add?_none (xs : List (Option ℝ)) : xs.foldl add? none = none := by
  induction xs with
  | nil => rfl
  | cons x xs ih => exact ih

theorem foldl_add?_some (x : ℝ) (xs : List ℝ) :
    (xs.map some).foldl add? (some x) = some (x + xs.sum) := by
  induction xs generalizing x with
  | nil => simp
  | cons y ys ih =>
    rw [List.map_cons, List.foldl_cons, List.sum_cons, ← add_assoc]
    exact ih (x + y)

theorem sum?_map_some (xs : List ℝ) : sum? (xs.map some) = some xs.sum := by
  rw [sum?, foldl_add?_some, zero_add]

variable {α β : Type}

/-- How far the value of a row is from the average over all rows. -/
noncomputable def deviation (rows : List β) (f : β → ℝ) (row : β) : ℝ :=
  f row - average (rows.map f)

theorem centered_map (rows : List β) (f : β → ℝ) :
    centered (rows.map f) = rows.map (deviation rows f) :=
  List.map_map

theorem covariances_map (keys : List α) (rows : List β) (v : α → β → ℝ) :
    covariances (keys.map fun k => rows.map (v k)) = keys.map fun a => keys.map fun b =>
      centeredCovariance? (rows.map (deviation rows (v a))) (rows.map (deviation rows (v b))) := by
  simp only [covariances, List.map_map, Function.comp_def, centered_map]

theorem centeredCovariance?_map {rows : List β} (h : 2 ≤ rows.length) (f g : β → ℝ) :
    centeredCovariance? (rows.map f) (rows.map g) =
      some ((rows.map fun r => f r * g r).sum / (rows.length - 1 : Nat)) := by
  rw [centeredCovariance?, List.length_map, if_neg (Nat.not_lt.mpr h), List.zipWith_map,
    List.zipWith_self, Scalar.sum_real]
  rfl

/-- With fewer than two rows no covariance is defined. -/
theorem sum?_covariances_of_lt {keys : List α} {rows : List β} (hk : keys ≠ [])
    (h : rows.length < 2) (v : α → β → ℝ) :
    sum? (covariances (keys.map fun k => rows.map (v k))).flatten = none := by
  obtain ⟨k, rest, rfl⟩ := List.exists_cons_of_ne_nil hk
  have hnone : ∀ f g : β → ℝ, centeredCovariance? (rows.map f) (rows.map g) = none := by
    intro f g
    rw [centeredCovariance?, List.length_map, if_pos h]
  rw [covariances_map, List.map_cons, List.map_cons, List.flatten_cons, hnone]
  exact foldl_add?_none _

/-- The covariances add up to the squares of the rows' total deviations. -/
theorem sum?_covariances (keys : List α) (rows : List β) (v : α → β → ℝ) (h : 2 ≤ rows.length) :
    sum? (covariances (keys.map fun k => rows.map (v k))).flatten =
      some ((rows.map fun r => (keys.map fun k => deviation rows (v k) r).sum ^ 2).sum /
        (rows.length - 1 : Nat)) := by
  have hsome : (covariances (keys.map fun k => rows.map (v k))).flatten =
      (keys.map fun a => keys.map fun b => (rows.map fun r =>
        deviation rows (v a) r * deviation rows (v b) r).sum /
          ((rows.length - 1 : Nat) : ℝ)).flatten.map some := by
    rw [covariances_map, List.map_flatten, List.map_map]
    congr 2
    funext a
    simp only [Function.comp_apply, List.map_map]
    congr 1
    funext b
    exact centeredCovariance?_map h _ _
  rw [hsome, sum?_map_some, List.sum_flatten, List.map_map]
  simp only [Function.comp_def, div_eq_mul_inv, List.sum_map_mul_right, sum_products]

section Samples

noncomputable def sampleMean (xs : List ℝ) : ℝ := xs.sum / xs.length

noncomputable def sampleVariance (xs : List ℝ) : ℝ :=
  (xs.map fun x => (x - sampleMean xs) ^ 2).sum / (xs.length - 1)

variable {rows rows' : List β}

theorem average_eq (xs : List ℝ) : average xs = sampleMean xs := by
  rw [average, Scalar.sum_real]
  rfl

theorem sampleVariance_nonneg {xs : List ℝ} (h : 2 ≤ xs.length) : 0 ≤ sampleVariance xs := by
  have hone : (1 : ℝ) ≤ xs.length := by exact_mod_cast Nat.le_of_lt h
  refine div_nonneg (List.sum_nonneg ?_) (sub_nonneg.mpr hone)
  simpa using fun _ _ => sq_nonneg _

theorem sampleMean_perm {xs ys : List ℝ} (h : xs.Perm ys) : sampleMean xs = sampleMean ys := by
  rw [sampleMean, sampleMean, h.sum_eq, h.length_eq]

theorem variance?_map (h : 2 ≤ rows.length) (f : β → ℝ) :
    variance? (rows.map f) = some (sampleVariance (rows.map f)) := by
  have hcount : ((rows.length - 1 : Nat) : ℝ) = rows.length - 1 := Nat.cast_pred (by omega)
  have hsquares : (rows.map fun r => deviation rows f r * deviation rows f r) =
      (rows.map f).map fun x => (x - sampleMean (rows.map f)) ^ 2 := by
    rw [List.map_map]
    refine List.map_congr_left fun r _ => ?_
    rw [deviation, average_eq, Function.comp_apply, sq]
  rw [variance?, centered_map, centeredCovariance?_map h, hsquares, hcount, sampleVariance,
    List.length_map]

theorem mean?_map (h : 2 ≤ rows.length) (f : β → ℝ) :
    mean? (rows.map f) = some (sampleMean (rows.map f)) := by
  have hne : (rows.map f).isEmpty = false := by
    rw [List.isEmpty_map, List.isEmpty_eq_false_iff]
    exact List.length_pos_iff.mp (by omega)
  rw [mean?, hne, average_eq]
  rfl

theorem sum_sampleMean (rows : List β) (fs : List (β → ℝ)) :
    (fs.map fun f => sampleMean (rows.map f)).sum =
      sampleMean (rows.map fun r => (fs.map fun f => f r).sum) := by
  simp only [sampleMean, List.length_map]
  induction fs with
  | nil => simp
  | cons f fs ih =>
    simp only [List.map_cons, List.sum_cons, ih, List.sum_map_add]
    ring

/-- The covariances of readings of the same rows add up to the variance of their sum. -/
theorem sum?_covariances_eq (h : 2 ≤ rows.length) (fs : List (β → ℝ)) :
    sum? (covariances (fs.map fun f => rows.map f)).flatten =
      some (sampleVariance (rows.map fun r => (fs.map fun f => f r).sum)) := by
  have hdeviation : ∀ r, (fs.map fun f => deviation rows f r).sum =
      (fs.map fun f => f r).sum - sampleMean (rows.map fun r => (fs.map fun f => f r).sum) := by
    intro r
    rw [← sum_sampleMean]
    simp only [deviation, average_eq]
    induction fs with
    | nil => simp
    | cons f fs ih =>
      simp only [List.map_cons, List.sum_cons, ih]
      ring
  have hcount : ((rows.length - 1 : Nat) : ℝ) = rows.length - 1 := Nat.cast_pred (by omega)
  rw [sum?_covariances fs rows (fun f => f) h, sampleVariance, List.length_map, List.map_map,
    hcount]
  simp only [hdeviation, Function.comp_def]

/-- The deviations of several readings, one column for each row that is read. -/
noncomputable def deviations {k : Nat} (rows : List β) (f : Fin k → β → ℝ) :
    Matrix (Fin k) (Fin rows.length) ℝ :=
  Matrix.of fun i r => deviation rows (f i) rows[r]

noncomputable def covarianceMatrix {k : Nat} (rows : List β) (f : Fin k → β → ℝ) :
    Matrix (Fin k) (Fin k) ℝ :=
  ((rows.length - 1 : Nat) : ℝ)⁻¹ • (deviations rows f * (deviations rows f)ᴴ)

theorem posSemidef_covarianceMatrix {k : Nat} (rows : List β) (f : Fin k → β → ℝ) :
    (covarianceMatrix rows f).PosSemidef :=
  (posSemidef_self_mul_conjTranspose _).smul (inv_nonneg.mpr (Nat.cast_nonneg _))

theorem centeredCovariance?_eq {k : Nat} (h : 2 ≤ rows.length) (f : Fin k → β → ℝ) (i j : Fin k) :
    centeredCovariance? (rows.map (deviation rows (f i))) (rows.map (deviation rows (f j))) =
      some (covarianceMatrix rows f i j) := by
  have hsum := Fin.sum_univ_fun_getElem rows
    fun r => deviation rows (f i) r * deviation rows (f j) r
  rw [centeredCovariance?_map h, ← hsum, covarianceMatrix, Matrix.smul_apply, Matrix.mul_apply,
    smul_eq_mul, div_eq_inv_mul]
  rfl

theorem covariances_ofFn {k : Nat} (h : 2 ≤ rows.length) (f : Fin k → β → ℝ) :
    covariances ((List.ofFn f).map fun g => rows.map g) =
      List.ofFn fun i => List.ofFn fun j => some (covarianceMatrix rows f i j) := by
  rw [covariances_map (List.ofFn f) rows fun g => g, List.map_ofFn]
  refine congrArg List.ofFn (funext fun i => ?_)
  rw [Function.comp_apply, List.map_ofFn]
  exact congrArg List.ofFn (funext fun j => centeredCovariance?_eq h f i j)

theorem sampleVariance_eq_covarianceMatrix {k : Nat} (h : 2 ≤ rows.length) (f : Fin k → β → ℝ)
    (i : Fin k) : sampleVariance (rows.map (f i)) = covarianceMatrix rows f i i := by
  have hvariance := centeredCovariance?_eq h f i i
  rw [← centered_map] at hvariance
  exact Option.some.inj ((variance?_map h (f i)).symm.trans hvariance)

theorem covariances_perm (h : 2 ≤ rows.length) (hp : rows.Perm rows') (fs : List (β → ℝ)) :
    covariances (fs.map fun f => rows'.map f) = covariances (fs.map fun f => rows.map f) := by
  have hdeviation : ∀ f : β → ℝ, deviation rows' f = deviation rows f := by
    intro f
    funext r
    rw [deviation, deviation, average_eq, average_eq, sampleMean_perm (hp.map f)]
  have h' : 2 ≤ rows'.length := hp.length_eq ▸ h
  rw [covariances_map fs rows' fun f => f, covariances_map fs rows fun f => f]
  refine List.map_congr_left fun f _ => List.map_congr_left fun g _ => ?_
  rw [hdeviation, hdeviation, centeredCovariance?_map h, centeredCovariance?_map h',
    (hp.map _).sum_eq, hp.length_eq]

end Samples

end Statistics

end PauliEstimation
