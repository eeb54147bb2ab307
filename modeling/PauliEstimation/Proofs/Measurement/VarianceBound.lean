import PauliEstimation.Proofs.BasisChange.Readout
import PauliEstimation.Proofs.Measurement.Convergence
import PauliEstimation.Proofs.Measurement.Covariance
import PauliEstimation.Proofs.Measurement.Reading
import PauliEstimation.Proofs.Measurement.UniformPlan

namespace PauliEstimation

variable {R : Type}

namespace Accumulator

variable {qubits : List Qubit} {a : Accumulator ℝ}

theorem Reads.values?_eq (h : a.Reads qubits) {s : Setting ℝ} (hs : s ∈ a.settings) :
    a.values? s = .ok (a.bits.rows.map (rowValue qubits s.observable)) :=
  values?_eq_rowValue h.nodup (h.covered s hs) h.columns_eq h.width_eq

theorem Reads.covariance?_eq (h : a.Reads qubits) :
    a.covariance? = .ok (Statistics.covariances
      (a.settings.map fun s => a.bits.rows.map (rowValue qubits s.observable))) :=
  covariance?_of_values? fun _ hs => h.values?_eq hs

end Accumulator

/-- What an accumulator adds to the variance of an estimate is defined and within the bound for each
of its settings. -/
def Accumulator.AddsWithin (bound : ℝ) (a : Accumulator ℝ) : Prop :=
  ∃ covariances total, a.covariance? = .ok covariances ∧
    Statistics.sum? covariances.flatten = some total ∧ 0 ≤ total / a.repetitions ∧
    total / a.repetitions ≤ bound * a.settings.length

namespace VariancePolicy

theorem isWithin_iff {bound : ℝ} {x : Option ℝ} :
    isWithin bound x = true ↔ ∃ y, x = some y ∧ y ≤ bound := by
  cases x with
  | none => simp [isWithin]
  | some y => simp [isWithin]

theorem repetitions_pos {p : VariancePolicy R} [Scalar R] {a : Accumulator R} (hpos : 1 ≤ p.chunk)
    (hlt : p.chunk < 2 ^ 63) (h : p.more a = .ok 0) : 1 ≤ a.repetitions := by
  by_contra hnone
  rw [more, if_pos (by omega), signedWord_of_lt hlt] at h
  have hzero := Except.ok.inj h
  omega

/-- An accumulator with settings is done when its variance is defined and within the bound. -/
theorem more_eq_zero_iff {p : VariancePolicy ℝ} {a : Accumulator ℝ}
    {covariances : List (List (Option ℝ))} (hpos : 1 ≤ p.chunk) (hlt : p.chunk < 2 ^ 63)
    (hrep : 1 ≤ a.repetitions) (hc : a.covariance? = .ok covariances) (hne : covariances ≠ []) :
    p.more a = .ok 0 ↔ ∃ total, Statistics.sum? covariances.flatten = some total ∧
      total / a.repetitions / covariances.length ≤ p.bound := by
  obtain ⟨row, rest, rfl⟩ := List.exists_cons_of_ne_nil hne
  rw [more, if_neg (by omega), hc]
  dsimp only
  constructor
  · intro h
    by_cases hwithin : isWithin p.bound (a.variancePerTerm (row :: rest)) = true
    · obtain ⟨y, hy, hle⟩ := isWithin_iff.mp hwithin
      obtain ⟨total, htotal, rfl⟩ := Option.map_eq_some_iff.mp hy
      exact ⟨total, htotal, hle⟩
    · rw [if_neg hwithin, signedWord_of_lt hlt] at h
      have hzero := Except.ok.inj h
      omega
  · rintro ⟨total, htotal, hle⟩
    have hwithin : isWithin p.bound (a.variancePerTerm (row :: rest)) = true :=
      isWithin_iff.mpr ⟨_, by rw [Accumulator.variancePerTerm, htotal]; rfl, hle⟩
    rw [if_pos hwithin]

/-- An accumulator that the policy is done with has shots, at least two if it has settings, and adds
no more than the bound for each setting. -/
theorem of_done {p : VariancePolicy ℝ} {a : Accumulator ℝ} {qubits : List Qubit}
    (hpos : 1 ≤ p.chunk) (hlt : p.chunk < 2 ^ 63) (hr : a.Reads qubits) (h : p.more a = .ok 0) :
    1 ≤ a.repetitions ∧ (a.settings ≠ [] → 2 ≤ a.repetitions) ∧ a.AddsWithin p.bound := by
  have hrep := repetitions_pos hpos hlt h
  have hcov := hr.covariance?_eq
  refine ⟨hrep, ?_⟩
  by_cases hs : a.settings = []
  · rw [hs] at hcov
    exact ⟨fun hne => absurd hs hne, _, 0, hcov, rfl, by simp, by simp [hs]⟩
  · obtain ⟨total, htotal, hle⟩ :=
      (more_eq_zero_iff hpos hlt hrep hcov (by simpa [Statistics.covariances])).mp h
    -- below two rows the sum of the covariances is undefined, so the policy would have gone on
    have htwo : 2 ≤ a.repetitions := by
      by_contra hfew
      rw [Statistics.sum?_covariances_of_lt hs (Nat.not_le.mp hfew)] at htotal
      cases htotal
    have hsquares := Statistics.sum?_covariances a.settings a.bits.rows
      (fun s => rowValue qubits s.observable) htwo
    have hnonneg : 0 ≤ total := by
      rw [hsquares] at htotal
      rw [← Option.some.inj htotal]
      exact div_nonneg (List.sum_nonneg (by simpa using fun _ _ => sq_nonneg _)) (Nat.cast_nonneg _)
    have hlen : (0 : ℝ) < a.settings.length := by
      exact_mod_cast List.length_pos_iff.mpr hs
    have hsize : (Statistics.covariances (a.settings.map fun s =>
        a.bits.rows.map (rowValue qubits s.observable))).length = a.settings.length := by
      simp [Statistics.covariances]
    rw [hsize, div_le_iff₀ hlen] at hle
    exact ⟨fun _ => htwo, _, total, hcov, htotal, div_nonneg hnonneg (Nat.cast_nonneg _), hle⟩

end VariancePolicy

namespace Estimate

/-- One accumulator adds its variance, whatever the value is. -/
theorem exists_addAccumulator? {qubits : List Qubit} {a : Accumulator ℝ} {bound x : ℝ}
    (hr : a.Reads qubits) (hw : a.AddsWithin bound) (value : Option ℝ) :
    ∃ value' y, addAccumulator? value (some x) a = .ok (value', some y) ∧ x ≤ y ∧
      y ≤ x + bound * a.settings.length := by
  obtain ⟨covariances, total, hc, htotal, hnonneg, hle⟩ := hw
  obtain ⟨means, hm⟩ := exists_mapM fun s hs => hr.exists_mean? hs (beq_self_eq_true _)
  have hadd : addAccumulator? value (some x) a =
      .ok (means.foldl Statistics.add? value, some (x + total / a.repetitions)) := by
    refine bind_eq_ok_iff.mpr ⟨means, hm, bind_eq_ok_iff.mpr
      ⟨covariances, liftFault_eq_ok_iff.mpr hc, ?_⟩⟩
    rw [htotal]
    rfl
  exact ⟨_, _, hadd, by linarith, by linarith⟩

theorem exists_fold {qubits : List Qubit} {bound x : ℝ} {accumulators : List (Accumulator ℝ)}
    (h : ∀ a ∈ accumulators, a.Reads qubits ∧ a.AddsWithin bound) (value : Option ℝ) :
    ∃ value' y, accumulators.foldlM (fun sums a => addAccumulator? sums.1 sums.2 a)
        (value, some x) = .ok (value', some y) ∧ x ≤ y ∧
      y ≤ x + bound * (accumulators.map fun a => a.settings.length).sum := by
  induction accumulators generalizing value x with
  | nil => exact ⟨value, x, rfl, le_refl x, by simp⟩
  | cons a rest ih =>
    obtain ⟨⟨hr, hw⟩, hrest⟩ := List.forall_mem_cons.mp h
    obtain ⟨value', y, hadd, hge, hle⟩ := exists_addAccumulator? (x := x) hr hw value
    obtain ⟨value'', z, hfold, hge', hle'⟩ := ih (x := y) hrest value'
    refine ⟨value'', z, bind_eq_ok_iff.mpr ⟨_, hadd, hfold⟩, hge.trans hge', ?_⟩
    rw [List.map_cons, List.sum_cons, Nat.cast_add, mul_add]
    linarith

/-- The squared error of an estimate is what the accumulators add. -/
theorem exists_ofAccumulators? {qubits : List Qubit} {bound : ℝ}
    {accumulators : List (Accumulator ℝ)}
    (h : ∀ a ∈ accumulators, a.Reads qubits ∧ a.AddsWithin bound) :
    ∃ value error, ofAccumulators? accumulators = .ok ⟨value, some error⟩ ∧
      error ^ 2 ≤ bound * (accumulators.map fun a => a.settings.length).sum := by
  obtain ⟨value, y, hfold, hge, hle⟩ := exists_fold (x := 0) h (some 0)
  refine ⟨value, Real.sqrt y, bind_eq_ok_iff.mpr ⟨_, hfold, rfl⟩, ?_⟩
  rw [Real.sq_sqrt hge]
  linarith

end Estimate

variable {σ κ : Type}

/-- When a measurement under the variance policy succeeds, every accumulator has shots, at least two
if it has settings, and the squared error of the estimate from all of them is at most the bound
times the number of all settings. -/
theorem variance_bound_limits_the_error (sampler : Sampler ℝ σ) (p : VariancePolicy ℝ)
    (config : MeasurementConfig) (c : Circuit ℝ) (groups : List (SettingGroup ℝ)) (sweep : Sweep ℝ)
    (fuel : Nat) (s s' : σ) (t t' : κ) (run : MeasurementRun ℝ) (hpos : 1 ≤ p.chunk)
    (hlt : p.chunk < 2 ^ 63)
    (h : measure sampler (StoppingPolicy.variance p).criterion config c groups sweep fuel s t =
      (some (.ok run), s', t')) :
    (∀ a ∈ run.accumulators, 1 ≤ a.repetitions ∧ (a.settings ≠ [] → 2 ≤ a.repetitions)) ∧
      ∃ value error, Estimate.ofAccumulators? run.accumulators = .ok ⟨value, some error⟩ ∧
        error ^ 2 ≤ p.bound * (run.accumulators.map fun a => a.settings.length).sum := by
  unfold measure at h
  cases hstart : Job.start? c groups sweep with
  | error e => simp [hstart] at h
  | ok started =>
    obtain ⟨job, session⟩ := started
    rw [hstart] at h
    have hdone : ∀ a ∈ run.accumulators, p.more a = .ok 0 :=
      Session.settled_of_run (Job.start?_settled p.more hstart) h
    have hreads := Job.reads_of_run hstart h
    have hwithin : ∀ a ∈ run.accumulators, 1 ≤ a.repetitions ∧
        (a.settings ≠ [] → 2 ≤ a.repetitions) ∧ a.AddsWithin p.bound :=
      fun a ha => VariancePolicy.of_done hpos hlt (hreads a ha) (hdone a ha)
    exact ⟨fun a ha => ⟨(hwithin a ha).1, (hwithin a ha).2.1⟩,
      Estimate.exists_ofAccumulators? fun a ha => ⟨hreads a ha, (hwithin a ha).2.2⟩⟩

/-- A sampler that never sees a bit set. -/
def clearSampler : Sampler R Unit := fun request s =>
  let width := (request.program.measurements.flatMap Prod.snd).length
  (.ok (request.sweep.points.map fun b => ⟨b, Bindings.empty.set BasisChange.key
    (BitMatrix.replicate request.repetitions (List.replicate width false))⟩), s)

noncomputable def exactZ : Setting ℝ := Setting.ofObservable (PauliString.single ⟨0⟩ .z)

theorem rowValue_exactZ (b : Bool) :
    rowValue [⟨0⟩] exactZ.observable [b] = if b then -1 else 1 := by
  have hcolumns : exactZ.observable.qubits.map [⟨0⟩].idxOf = [0] := rfl
  rw [rowValue, hcolumns]
  cases b with
  | false => simp [rowParity, exactZ, Setting.ofObservable, PauliString.single]
  | true => norm_num [rowParity, exactZ, Setting.ofObservable, PauliString.single]

/-- Two rows of either value have a variance of `1 / 3`. -/
theorem more_of_halves {a : Accumulator ℝ} (hr : a.Reads [⟨0⟩]) (hs : a.settings = [exactZ])
    (hrows : a.bits.rows = [[false], [false], [true], [true]]) :
    VariancePolicy.more ⟨1 / 2, 4⟩ a = .ok 0 := by
  have hrep : a.repetitions = 4 := congrArg List.length hrows
  have hcov := hr.covariance?_eq
  have hsum := Statistics.sum?_covariances [exactZ] a.bits.rows
    (fun s => rowValue [⟨0⟩] s.observable) (by rw [hrows]; decide)
  rw [hs] at hcov
  refine (VariancePolicy.more_eq_zero_iff (by decide) (by decide) (by omega) hcov (by
    simp [Statistics.covariances])).mpr ⟨_, hsum, ?_⟩
  rw [hrep, hrows]
  norm_num [Statistics.deviation, Statistics.average, Scalar.sum_real, rowValue_exactZ,
    Statistics.covariances]

theorem exactZ_fits : (SettingGroup.mk exactZ [exactZ]).Fits (Job.qubitsOf [⟨exactZ, [exactZ]⟩]) :=
  ⟨beq_self_eq_true (1 : ℝ), by decide⟩

/-- Half the rows are read with their flips undone. -/
theorem exists_halves : ∃ job session first a,
    Job.start? ∅ [⟨exactZ, [exactZ]⟩] Sweep.unit = .ok (job, session) ∧
      Session.round clearSampler (StoppingPolicy.variance ⟨1 / 2, 4⟩).criterion ⟨100, true, none⟩
        job session () () = (.continued first, (), ()) ∧
      first.pending = [0] ∧ first.accumulators = [a] ∧ a.columns = Job.columnsOf [⟨0⟩] ∧
      a.bits.width = 1 ∧ a.settings = [exactZ] ∧
      a.bits.rows = [[false], [false], [true], [true]] :=
  ⟨_, _, _, _, bind_eq_ok_iff.mpr ⟨_, mapM_eq_ok_iff.mpr
    (.cons (Job.groupAccumulators?_of_fits Sweep.unit exactZ_fits) .nil), rfl⟩, rfl, rfl, rfl, rfl,
    rfl, rfl, rfl⟩

/-- So one chunk of four rows is within a bound of a half. -/
theorem measure_halves : ∃ run, measure clearSampler (StoppingPolicy.variance ⟨1 / 2, 4⟩).criterion
    ⟨100, true, none⟩ ∅ [⟨exactZ, [exactZ]⟩] Sweep.unit 2 () () = (some (.ok run), (), ()) ∧
      run.accumulators.map Accumulator.repetitions = [4] := by
  obtain ⟨job, session, first, a, hstart, hround, hpending, haccumulators, hcolumns, hwidth,
      hsettings, hrows⟩ := exists_halves
  have hreads : a.Reads [⟨0⟩] := by
    refine ⟨by decide, hcolumns, hwidth, ?_⟩
    rw [hsettings]
    decide
  have hdone : (StoppingPolicy.variance ⟨1 / 2, 4⟩).more a = .ok 0 :=
    more_of_halves hreads hsettings hrows
  have hask : Plan.ask (StoppingPolicy.variance ⟨1 / 2, 4⟩).criterion [a] [0] () = (.ok [], ()) :=
    Plan.ask_uniform (n := 0) (List.forall_mem_singleton.mpr ⟨a, rfl, hdone⟩) ()
  have hlast : Session.round clearSampler (StoppingPolicy.variance ⟨1 / 2, 4⟩).criterion
      ⟨100, true, none⟩ job first () () =
        (.finished ⟨first.accumulators, first.notices ++ [], first.rounds⟩, (), ()) := by
    unfold Session.round Plan.next
    rw [hpending, haccumulators, hask]
    rfl
  refine ⟨⟨first.accumulators, first.notices ++ [], first.rounds⟩, ?_, ?_⟩
  · rw [(measure_of_start? hstart _ _ _ _ _ _).1]
    simp only [Session.run, hround, hlast]
  · simp [haccumulators, Accumulator.repetitions, BitMatrix.rowCount, hrows]

theorem variance_bound_limits_the_error_halves :
    1 ≤ 4 ∧ 4 < 2 ^ 63 ∧ ∃ run, measure clearSampler
        (StoppingPolicy.variance ⟨1 / 2, 4⟩).criterion ⟨100, true, none⟩ ∅
        [⟨exactZ, [exactZ]⟩] Sweep.unit 2 () () = (some (.ok run), (), ()) ∧
      run.accumulators.map Accumulator.repetitions = [4] ∧
      (∀ a ∈ run.accumulators, 1 ≤ a.repetitions ∧ (a.settings ≠ [] → 2 ≤ a.repetitions)) ∧
      ∃ value error, Estimate.ofAccumulators? run.accumulators = .ok ⟨value, some error⟩ ∧
        error ^ 2 ≤ 1 / 2 * (run.accumulators.map fun a => a.settings.length).sum := by
  obtain ⟨run, hrun, hrep⟩ := measure_halves
  obtain ⟨hcounts, herror⟩ := variance_bound_limits_the_error clearSampler ⟨1 / 2, 4⟩
    ⟨100, true, none⟩ ∅ [⟨exactZ, [exactZ]⟩] Sweep.unit 2 () () () () run (by decide)
    (by decide) hrun
  exact ⟨by decide, by decide, run, hrun, hrep, hcounts, herror⟩

end PauliEstimation
