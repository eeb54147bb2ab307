import PauliEstimation.Measurement.Estimate
import PauliEstimation.Proofs.Measurement.Covariance
import PauliEstimation.Proofs.Measurement.Values

namespace PauliEstimation

open Matrix

theorem mapM_liftFault {R α β : Type} {f : α → Except Fault β} (xs : List α) :
    xs.mapM (fun x => liftFault (R := R) (f x)) = liftFault (xs.mapM f) := by
  induction xs with
  | nil => rfl
  | cons x xs ih =>
    rw [List.mapM_cons, List.mapM_cons, ih]
    cases f x with
    | error fault => rfl
    | ok y => cases xs.mapM f <;> rfl

theorem exists_eq_ofFn {α : Type} {xs : List α} {n : Nat} (h : xs.length = n) :
    ∃ f : Fin n → α, xs = List.ofFn f := by
  subst h
  exact ⟨xs.get, (List.ofFn_get xs).symm⟩

open Statistics

namespace Accumulator

/-- The values of all settings added up, shot by shot. -/
noncomputable def totals? (a : Accumulator ℝ) : Except Fault (List ℝ) := do
  let family ← a.settings.mapM a.values?
  return (List.range a.repetitions).map fun r => (family.map fun xs => xs.getD r 0).sum

variable {a a' : Accumulator ℝ}

theorem totals?_eq (h : 1 ≤ a.repetitions) : a.totals? = a.readers?.map fun fs =>
    a.bits.rows.map fun row => (fs.map fun f => f row).sum := by
  unfold totals?
  rw [mapM_values? h]
  cases a.readers? with
  | error fault => rfl
  | ok fs =>
    refine congrArg Except.ok (List.ext_getElem (by simp [repetitions, BitMatrix.rowCount]) ?_)
    intro r hr hr'
    have hrow : r < a.bits.rows.length := by simpa using hr'
    simp [Function.comp_def, hrow]

theorem length_of_totals? {xs : List ℝ} (h : 2 ≤ a.repetitions) (hxs : a.totals? = .ok xs) :
    xs.length = a.repetitions := by
  rw [totals?_eq (by omega)] at hxs
  obtain ⟨fs, _, rfl⟩ := map_eq_ok_iff.mp hxs
  exact List.length_map _

theorem mean?_eq_map (s : Setting ℝ) : a.mean? s = (a.listedValues? s).map Statistics.mean? := by
  unfold mean?
  cases a.listedValues? s <;> rfl

theorem variance?_eq_map (s : Setting ℝ) : a.variance? s = (a.listedValues? s).map fun xs =>
    (Statistics.variance? xs).map (· / Scalar.ofNat xs.length) := by
  unfold variance?
  cases a.listedValues? s <;> rfl

theorem covariance?_eq_map (h : 1 ≤ a.repetitions) : a.covariance? = a.readers?.map fun fs =>
    covariances (fs.map fun f => a.bits.rows.map f) := by
  unfold covariance?
  rw [mapM_values? h]
  cases a.readers? <;> rfl

theorem mapM_mean? (h : 2 ≤ a.repetitions) : a.settings.mapM a.mean? =
    liftFault (a.readers?.map (List.map fun f => some (sampleMean (a.bits.rows.map f)))) := by
  have hmean : ∀ s ∈ a.settings, a.mean? s = liftFault ((reader? a.columns a.bits.width s).map
      fun f => some (sampleMean (a.bits.rows.map f))) := by
    intro s hs
    rw [mean?_eq_map, listedValues?_of_mem hs, values?_eq_map (by omega)]
    cases reader? a.columns a.bits.width s with
    | error fault => rfl
    | ok f => exact congrArg Except.ok (mean?_map h f)
  rw [mapM_congr hmean, mapM_liftFault, mapM_map, readers?]

/-- Covariances of readings of at least two rows form a symmetric positive semidefinite matrix, with
the variances of the settings on its diagonal. -/
theorem exists_covarianceMatrix (h : 2 ≤ a.repetitions) {fs : List (List Bool → ℝ)}
    (hfs : a.readers? = .ok fs) :
    ∃ matrix : Matrix (Fin a.settings.length) (Fin a.settings.length) ℝ,
      a.covariance? = .ok (List.ofFn fun i => List.ofFn fun j => some (matrix i j)) ∧
      matrix.IsSymm ∧ matrix.PosSemidef ∧ ∀ i, ∃ v, a.variance? (a.settings.get i) = .ok (some v) ∧
        matrix i i = a.repetitions * v := by
  have hreads := mapM_eq_ok_iff.mp hfs
  obtain ⟨f, rfl⟩ := exists_eq_ofFn hreads.length_eq.symm
  have hpos := posSemidef_covarianceMatrix a.bits.rows f
  have hsymm : (covarianceMatrix a.bits.rows f).IsSymm :=
    (conjTranspose_eq_transpose_of_trivial _).symm.trans hpos.isHermitian
  refine ⟨covarianceMatrix a.bits.rows f, ?_, hsymm, hpos, fun i => ?_⟩
  · rw [covariance?_eq_map (by omega), hfs]
    exact congrArg Except.ok (covariances_ofFn h f)
  · obtain ⟨g, hg, hread⟩ := forall₂_getElem? hreads (List.getElem?_eq_getElem i.isLt)
    obtain rfl : f i = g := by simpa using hg
    have hvalues : a.listedValues? (a.settings.get i) = .ok (a.bits.rows.map (f i)) := by
      rw [listedValues?_of_mem (List.get_mem _ _), values?_eq_map (by omega)]
      simp [hread, Except.map, liftFault]
    have hcount : (a.repetitions : ℝ) ≠ 0 := Nat.cast_ne_zero.mpr (by omega)
    refine ⟨sampleVariance (a.bits.rows.map (f i)) / a.repetitions, ?_, ?_⟩
    · rw [variance?_eq_map, hvalues]
      simp only [Except.map, variance?_map h, List.length_map]
      rfl
    · rw [mul_div_cancel₀ _ hcount, sampleVariance_eq_covarianceMatrix h]

/-- The same settings on the same columns, with the rows in another order. -/
structure Shuffled (a a' : Accumulator ℝ) : Prop where
  settings_eq : a'.settings = a.settings
  columns_eq : a'.columns = a.columns
  width_eq : a'.bits.width = a.bits.width
  rows_perm : a.bits.rows.Perm a'.bits.rows

theorem Shuffled.repetitions_eq (h : a.Shuffled a') : a'.repetitions = a.repetitions :=
  h.rows_perm.length_eq.symm

theorem Shuffled.readers?_eq (h : a.Shuffled a') : a'.readers? = a.readers? := by
  rw [readers?, readers?, h.settings_eq, h.columns_eq, h.width_eq]

/-- A statistic of all values of a setting does not see the order of the rows. -/
theorem Shuffled.map_listedValues? {γ : Type} (h : a.Shuffled a') (htwo : 2 ≤ a.repetitions)
    {stat : List ℝ → γ} (hstat : ∀ f : List Bool → ℝ,
      stat (a'.bits.rows.map f) = stat (a.bits.rows.map f)) (s : Setting ℝ) :
    (a'.listedValues? s).map stat = (a.listedValues? s).map stat := by
  have htwo' : 2 ≤ a'.repetitions := h.repetitions_eq ▸ htwo
  unfold listedValues?
  rw [h.settings_eq, values?_eq_map (by omega), values?_eq_map (by omega), h.columns_eq, h.width_eq]
  split
  next =>
    cases reader? a.columns a.bits.width s with
    | error fault => rfl
    | ok f => exact congrArg Except.ok (hstat f)
  next => rfl

theorem Shuffled.mean?_eq (h : a.Shuffled a') (htwo : 2 ≤ a.repetitions) (s : Setting ℝ) :
    a'.mean? s = a.mean? s := by
  rw [mean?_eq_map, mean?_eq_map]
  refine h.map_listedValues? htwo (fun f => ?_) s
  rw [mean?_map htwo, mean?_map (h.repetitions_eq ▸ htwo : 2 ≤ a'.repetitions),
    sampleMean_perm (h.rows_perm.map f)]

theorem Shuffled.covariance?_eq (h : a.Shuffled a') (htwo : 2 ≤ a.repetitions) :
    a'.covariance? = a.covariance? := by
  have htwo' : 2 ≤ a'.repetitions := h.repetitions_eq ▸ htwo
  rw [covariance?_eq_map (by omega), covariance?_eq_map (by omega), h.readers?_eq]
  exact congrArg (Except.map · a.readers?) (funext (covariances_perm htwo h.rows_perm))

theorem Shuffled.variance?_eq (h : a.Shuffled a') (htwo : 2 ≤ a.repetitions) (s : Setting ℝ) :
    a'.variance? s = a.variance? s := by
  rw [variance?_eq_map, variance?_eq_map]
  refine h.map_listedValues? htwo (fun f => ?_) s
  have hvariance := covariances_perm htwo h.rows_perm [f]
  have hsingle : Statistics.variance? (a'.bits.rows.map f) =
      Statistics.variance? (a.bits.rows.map f) := by
    simpa [covariances, Statistics.variance?] using hvariance
  rw [hsingle, List.length_map, List.length_map, h.rows_perm.length_eq]

end Accumulator

namespace Estimate

open Accumulator

variable {accumulators accumulators' : List (Accumulator ℝ)} {a a' : Accumulator ℝ}

/-- An accumulator adds the mean of its totals, and their variance over the number of shots. -/
theorem addAccumulator?_eq (h : 2 ≤ a.repetitions) (x y : ℝ) :
    addAccumulator? (some x) (some y) a = liftFault (a.totals?.map fun xs =>
      (some (x + sampleMean xs), some (y + sampleVariance xs / xs.length))) := by
  unfold addAccumulator?
  rw [mapM_mean? h, covariance?_eq_map (by omega), totals?_eq (by omega)]
  cases a.readers? with
  | error fault => rfl
  | ok fs =>
    have hvalue : (fs.map fun f => some (sampleMean (a.bits.rows.map f))).foldl add? (some x) =
        some (x + sampleMean (a.bits.rows.map fun row => (fs.map fun f => f row).sum)) := by
      rw [← sum_sampleMean, ← foldl_add?_some, List.map_map]
      rfl
    simp only [Except.map, liftFault, bind, Except.bind, pure, Except.pure, hvalue,
      sum?_covariances_eq h, List.length_map]
    rfl

theorem foldlM_addAccumulator? (h : ∀ a ∈ accumulators, 2 ≤ a.repetitions) (x y : ℝ) :
    accumulators.foldlM (fun sums a => addAccumulator? sums.1 sums.2 a) (some x, some y) =
      liftFault ((accumulators.mapM totals?).map fun totals =>
        (some (x + (totals.map sampleMean).sum),
          some (y + (totals.map fun xs => sampleVariance xs / xs.length).sum))) := by
  -- every accumulator adds to what those before it came to, so the sums vary
  induction accumulators generalizing x y with
  | nil =>
    simp [liftFault, Except.map, pure, Except.pure]
  | cons a rest ih =>
    obtain ⟨ha, hrest⟩ := List.forall_mem_cons.mp h
    rw [List.foldlM_cons, List.mapM_cons, addAccumulator?_eq ha]
    cases a.totals? with
    | error fault => rfl
    | ok xs =>
      have hnext := ih hrest (x + sampleMean xs) (y + sampleVariance xs / xs.length)
      cases hmap : rest.mapM totals? with
      | error fault =>
        rw [hmap] at hnext
        exact hnext
      | ok totals =>
        rw [hmap] at hnext
        refine hnext.trans ?_
        simp [liftFault, Except.map, bind, Except.bind, pure, Except.pure, add_assoc]

theorem ofAccumulators?_eq (h : ∀ a ∈ accumulators, 2 ≤ a.repetitions) :
    ofAccumulators? accumulators = liftFault ((accumulators.mapM totals?).map fun totals =>
      ⟨some (totals.map sampleMean).sum,
        some (√(totals.map fun xs => sampleVariance xs / xs.length).sum)⟩) := by
  unfold ofAccumulators?
  rw [foldlM_addAccumulator? h]
  cases accumulators.mapM totals? with
  | error fault => rfl
  | ok totals =>
    simp only [zero_add]
    rfl

theorem ofAccumulators?_shuffled (h : ∀ a ∈ accumulators, 2 ≤ a.repetitions)
    (hs : List.Forall₂ Shuffled accumulators accumulators') :
    ofAccumulators? accumulators' = ofAccumulators? accumulators := by
  have hadd : ∀ a a', 2 ≤ a.repetitions → a.Shuffled a' → ∀ value variance : Option ℝ,
      addAccumulator? value variance a' = addAccumulator? value variance a := by
    intro a a' htwo ha value variance
    unfold addAccumulator?
    rw [ha.settings_eq, ha.covariance?_eq htwo, ha.repetitions_eq, funext (ha.mean?_eq htwo)]
  have hfold : ∀ sums : Option ℝ × Option ℝ,
      accumulators'.foldlM (fun sums a => addAccumulator? sums.1 sums.2 a) sums =
        accumulators.foldlM (fun sums a => addAccumulator? sums.1 sums.2 a) sums := by
    induction hs with
    | nil => exact fun _ => rfl
    | cons ha _ ih =>
      obtain ⟨htwo, hrest⟩ := List.forall_mem_cons.mp h
      intro sums
      rw [List.foldlM_cons, List.foldlM_cons, hadd _ _ htwo ha]
      exact congrArg _ (funext (ih hrest))
  unfold ofAccumulators?
  rw [hfold]

end Estimate

/-- With at least two shots in every accumulator, the estimate is the sum of the means of the group
totals, and its squared error the sum of their sample variances over the numbers of shots; it fails
exactly when a total does. The covariances of an accumulator form a symmetric positive semidefinite
matrix with the variances of its settings, times the number of shots, on the diagonal. None of this
changes when the shots of the accumulators are put in another order. -/
theorem group_statistics_are_those_of_totals (accumulators : List (Accumulator ℝ))
    (htwo : ∀ a ∈ accumulators, 2 ≤ a.repetitions) :
    (∀ totals, accumulators.mapM Accumulator.totals? = .ok totals →
      ∃ error, Estimate.ofAccumulators? accumulators =
          .ok ⟨some (totals.map sampleMean).sum, some error⟩ ∧ 0 ≤ error ∧
        error ^ 2 = (totals.map fun xs => sampleVariance xs / xs.length).sum) ∧
    (∀ fault, accumulators.mapM Accumulator.totals? = .error fault →
      Estimate.ofAccumulators? accumulators = .error (.fault fault)) ∧
    (∀ a ∈ accumulators, ∀ xs, a.totals? = .ok xs →
      ∃ matrix : Matrix (Fin a.settings.length) (Fin a.settings.length) ℝ,
        a.covariance? = .ok (List.ofFn fun i => List.ofFn fun j => some (matrix i j)) ∧
        matrix.IsSymm ∧ matrix.PosSemidef ∧ ∀ i, ∃ v,
          a.variance? (a.settings.get i) = .ok (some v) ∧ matrix i i = a.repetitions * v) ∧
    ∀ accumulators', List.Forall₂ Accumulator.Shuffled accumulators accumulators' →
      Estimate.ofAccumulators? accumulators' = Estimate.ofAccumulators? accumulators ∧
      List.Forall₂ (fun a a' => a'.covariance? = a.covariance? ∧
        ∀ s, a'.mean? s = a.mean? s ∧ a'.variance? s = a.variance? s)
        accumulators accumulators' := by
  refine ⟨fun totals htotals => ?_, fun fault hfault => ?_, fun a ha xs hxs => ?_,
    fun accumulators' hshuffled => ⟨Estimate.ofAccumulators?_shuffled htwo hshuffled, ?_⟩⟩
  · have hnonneg : 0 ≤ (totals.map fun xs => sampleVariance xs / xs.length).sum := by
      refine List.sum_nonneg ?_
      intro x hx
      obtain ⟨xs, hxs, rfl⟩ := List.mem_map.mp hx
      obtain ⟨a, ha, htotal⟩ := forall₂_exists_of_mem (mapM_eq_ok_iff.mp htotals) hxs
      have hlen := Accumulator.length_of_totals? (htwo a ha) htotal
      exact div_nonneg (sampleVariance_nonneg (hlen ▸ htwo a ha)) (Nat.cast_nonneg _)
    refine ⟨_, ?_, Real.sqrt_nonneg _, Real.sq_sqrt hnonneg⟩
    rw [Estimate.ofAccumulators?_eq htwo, htotals]
    rfl
  · rw [Estimate.ofAccumulators?_eq htwo, hfault]
    rfl
  · rw [Accumulator.totals?_eq (Nat.le_of_lt (htwo a ha))] at hxs
    obtain ⟨fs, hfs, _⟩ := map_eq_ok_iff.mp hxs
    exact Accumulator.exists_covarianceMatrix (htwo a ha) hfs
  · have hboth := (List.forall₂_and_left _ _).mpr ⟨htwo, hshuffled⟩
    refine hboth.imp ?_
    rintro a a' ⟨ha, hs⟩
    exact ⟨hs.covariance?_eq ha, fun s => ⟨hs.mean?_eq ha s, hs.variance?_eq ha s⟩⟩

noncomputable def doubledZ (bits : BitMatrix) : Accumulator ℝ :=
  let z : Setting ℝ := Setting.ofObservable (PauliString.single ⟨0⟩ .z)
  let double : Setting ℝ := ⟨z.initial, 1 + 1, z.observable.factors⟩
  ⟨⟨z, ∅⟩, [z, double], Job.columnsOf [⟨0⟩], bits, []⟩

theorem totals?_doubledZ {bits : BitMatrix} (hrows : 1 ≤ (doubledZ bits).repetitions)
    (hwidth : bits.width = 1) : (doubledZ bits).totals? =
      .ok (bits.rows.map fun row => 3 * Accumulator.rowSign [0] row) := by
  have hreaders : (doubledZ bits).readers? = .ok [fun row => 1 * Accumulator.rowSign [0] row,
      fun row => (1 + 1) * Accumulator.rowSign [0] row] := by
    have hbits : (doubledZ bits).bits.width = 1 := hwidth
    rw [Accumulator.readers?, hbits]
    rfl
  rw [Accumulator.totals?_eq hrows, hreaders]
  refine congrArg Except.ok (List.map_congr_left fun row _ => ?_)
  simp only [List.map_cons, List.map_nil, List.sum_cons, List.sum_nil]
  ring

/-- Four shots that alternate: the total is 3 and -3 in turn, and its sample variance is 12. -/
theorem group_statistics_are_those_of_totals_alternating :
    let alternating : BitMatrix := ⟨1, [[false], [true], [false], [true]], by decide, by decide⟩
    let sorted : BitMatrix := ⟨1, [[false], [false], [true], [true]], by decide, by decide⟩
    2 ≤ (doubledZ alternating).repetitions ∧
      (∃ error, Estimate.ofAccumulators? [doubledZ alternating] = .ok ⟨some 0, some error⟩ ∧
        error ^ 2 = 3) ∧
      Estimate.ofAccumulators? [doubledZ sorted] =
        Estimate.ofAccumulators? [doubledZ alternating] := by
  intro alternating sorted
  have htwo : ∀ a ∈ [doubledZ alternating], 2 ≤ a.repetitions :=
    List.forall_mem_singleton.mpr (by decide)
  obtain ⟨hestimate, -, -, hshuffled⟩ :=
    group_statistics_are_those_of_totals [doubledZ alternating] htwo
  have hfirst : (doubledZ alternating).totals? = .ok [3, -3, 3, -3] := by
    rw [totals?_doubledZ (by decide) rfl]
    simp [alternating, Accumulator.rowSign]
  have htotals : [doubledZ alternating].mapM Accumulator.totals? = .ok [[3, -3, 3, -3]] :=
    mapM_eq_ok_iff.mpr (.cons hfirst .nil)
  obtain ⟨error, hok, -, hsq⟩ := hestimate _ htotals
  refine ⟨by decide, ⟨error, ?_, ?_⟩, (hshuffled [doubledZ sorted] ?_).1⟩
  · rw [hok]
    norm_num [sampleMean]
  · rw [hsq]
    norm_num [sampleMean, sampleVariance]
  · exact .cons ⟨rfl, rfl, rfl, by decide⟩ .nil

end PauliEstimation
