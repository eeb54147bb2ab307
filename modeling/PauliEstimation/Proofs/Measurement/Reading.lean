import PauliEstimation.Measurement.Estimate
import PauliEstimation.Proofs.Measurement.Layout
import PauliEstimation.Proofs.Measurement.Routing
import PauliEstimation.Proofs.Measurement.Values

namespace PauliEstimation

variable {R σ κ : Type}

/-- An accumulator with one column for each listed qubit, on which all its settings can be read. -/
structure Accumulator.Reads (qubits : List Qubit) (a : Accumulator R) : Prop where
  nodup : qubits.Nodup
  columns_eq : a.columns = Job.columnsOf qubits
  width_eq : a.bits.width = qubits.length
  covered : ∀ s ∈ a.settings, ∀ q ∈ s.observable.qubits, q ∈ qubits

theorem Accumulator.Reads.extends {qubits : List Qubit} {a b : Accumulator R}
    {batches : List (List (List Bool))} (h : a.Reads qubits) (hab : a.Extends b batches) :
    b.Reads qubits where
  nodup := h.nodup
  columns_eq := hab.columns_eq.trans h.columns_eq
  width_eq := hab.width_eq.trans h.width_eq
  covered := hab.settings_eq ▸ h.covered

variable [Scalar R]

theorem SettingGroup.Fits.mem_qubits {groups : List (SettingGroup R)} {g : SettingGroup R}
    (h : g.Fits (Job.qubitsOf groups)) (hg : g ∈ groups) :
    ∀ s ∈ g.settings, ∀ q ∈ s.observable.qubits, q ∈ Job.qubitsOf groups := by
  intro s hs q hq
  obtain ⟨axis, haxis⟩ := QubitMap.mem_keys_iff.mp hq
  have hpad : (BasisChange.padMap g.max.observable.factors (Job.qubitsOf groups) .z).get? q =
      some axis := (h.compatible s hs).1 _ (QubitMap.get?_eq_some_iff.mp haxis)
  rw [BasisChange.get?_padMap] at hpad
  cases hmax : g.max.observable.factors.get? q with
  | some own =>
    have hmem : q ∈ g.max.observable.qubits := QubitMap.mem_keys_iff.mpr ⟨own, hmax⟩
    exact Qubit.mem_ascending.mpr (List.mem_flatMap.mpr ⟨g, hg, List.mem_append_right _ hmem⟩)
  | none =>
    by_contra hout
    rw [hmax, if_neg hout] at hpad
    cases hpad

section Rounds

variable {sampler : Sampler R σ} {criterion : Criterion R κ} {config : MeasurementConfig}
  {c : Circuit R} {groups : List (SettingGroup R)} {sweep : Sweep R} {job : Job R}
  {session : Session R} {fuel : Nat} {s s' : σ} {t t' : κ} {run : MeasurementRun R}

namespace Session

/-- Whatever a round finds in an accumulator was added to one that the run started with. -/
theorem exists_extends_of_mem_history {v : Visit R} {b : Accumulator R}
    (hn : session.pending.Nodup)
    (hv : v ∈ history sampler criterion config job fuel session s t)
    (hb : b ∈ v.session.accumulators) :
    ∃ a ∈ session.accumulators, ∃ batches, a.Extends b batches := by
  obtain ⟨before, after, hsplit⟩ := List.append_of_mem hv
  obtain ⟨hlen, _, hext⟩ := history_extends hn hsplit
  obtain ⟨_, a, ha, hab⟩ := exists_getElem?_of_mem hlen hext hb
  exact ⟨a, List.mem_of_getElem? ha, _, hab⟩

/-- A run returns the accumulators of its last round. -/
theorem exists_mem_history_of_run
    (h : Session.run sampler criterion config job fuel session s t = (some (.ok run), s', t')) :
    ∃ v ∈ history sampler criterion config job fuel session s t,
      v.session.accumulators = run.accumulators := by
  obtain ⟨before, last, s₁, t₁, _, hfin, hhist⟩ := run_eq_ok (P := fun _ => True) trivial
    (fun _ _ => trivial) h
  obtain ⟨plan, _, _, rfl⟩ := round_eq_finished hfin
  exact ⟨⟨last, none⟩, by simp [hhist], rfl⟩

end Session

namespace Job

/-- An accumulator whose columns are all qubits of the groups and whose settings are those of one
group. -/
def ReadsGroup (groups : List (SettingGroup R)) (a : Accumulator R) : Prop :=
  a.Reads (qubitsOf groups) ∧ ∃ g ∈ groups, a.settings = g.settings

theorem readsGroup_of_start? (h : start? c groups sweep = .ok (job, session)) :
    ∀ a ∈ session.accumulators, ReadsGroup groups a := by
  intro a ha
  obtain ⟨g, hg, b, _, rfl⟩ := mem_accumulators_of_start? h a ha
  have hnodup := nodup_qubitsOf groups
  exact ⟨⟨hnodup, rfl, size_columnsOf hnodup, (fits_of_start? h g hg).mem_qubits hg⟩, g, hg, rfl⟩

theorem readsGroup_of_mem_history {v : Visit R}
    (hstart : start? c groups sweep = .ok (job, session))
    (hv : v ∈ Session.history sampler criterion config job fuel session s t) :
    ∀ a ∈ v.session.accumulators, ReadsGroup groups a := by
  have hnodup : session.pending.Nodup := by
    obtain ⟨_, _, _, rfl⟩ := start?_eq_ok hstart
    exact List.nodup_range
  intro b hb
  obtain ⟨a, ha, batches, hab⟩ := Session.exists_extends_of_mem_history hnodup hv hb
  obtain ⟨hreads, g, hg, hsettings⟩ := readsGroup_of_start? hstart a ha
  exact ⟨hreads.extends hab, g, hg, hab.settings_eq.trans hsettings⟩

theorem readsGroup_of_run (hstart : start? c groups sweep = .ok (job, session))
    (h : Session.run sampler criterion config job fuel session s t = (some (.ok run), s', t')) :
    ∀ a ∈ run.accumulators, ReadsGroup groups a := by
  obtain ⟨v, hv, hlast⟩ := Session.exists_mem_history_of_run h
  exact hlast ▸ readsGroup_of_mem_history hstart hv

theorem reads_of_run (hstart : start? c groups sweep = .ok (job, session))
    (h : Session.run sampler criterion config job fuel session s t = (some (.ok run), s', t')) :
    ∀ a ∈ run.accumulators, a.Reads (qubitsOf groups) :=
  fun a ha => (readsGroup_of_run hstart h a ha).1

end Job

end Rounds

namespace Accumulator

/-- Every listed setting has a value in each shot and all statistics, the result list follows the
settings, and the settings have covariances. -/
structure Readable (a : Accumulator R) : Prop where
  values : ∀ x ∈ a.settings, ∃ values, a.values? x = .ok values ∧ values.length = a.repetitions
  mean : ∀ x ∈ a.settings, ∃ mean, a.mean? x = .ok mean
  variance : ∀ x ∈ a.settings, ∃ variance, a.variance? x = .ok variance
  stderr : ∀ x ∈ a.settings, ∃ stderr, a.stderr? x = .ok stderr
  results : ∃ results, a.results? = .ok results ∧ List.Forall₂ (fun x r => r.setting = x ∧
    a.mean? x = .ok r.mean ∧ a.variance? x = .ok r.variance ∧ r.repetitions = a.repetitions)
    a.settings results
  covariance : ∃ covariances, a.covariance? = .ok covariances

variable {qubits : List Qubit} {a : Accumulator R} {x : Setting R}

theorem Reads.exists_values? (h : a.Reads qubits) (hx : x ∈ a.settings) :
    ∃ values, a.values? x = .ok values ∧ values.length = a.repetitions :=
  ⟨_, values?_of_columnsOf h.nodup (h.covered x hx) h.columns_eq h.width_eq, List.length_map _⟩

theorem Reads.exists_covariance? (h : a.Reads qubits) :
    ∃ covariances, a.covariance? = .ok covariances :=
  exists_bind (exists_mapM fun _ hx => (h.exists_values? hx).imp fun _ hv => hv.1) fun _ _ =>
    ⟨_, rfl⟩

section Listed

variable (h : a.Reads qubits) (hx : x ∈ a.settings)
  (hself : (x.observable.coefficient == x.observable.coefficient) = true)

include h hx hself

theorem Reads.exists_listedValues? : ∃ values, a.listedValues? x = .ok values := by
  obtain ⟨values, hvalues, _⟩ := h.exists_values? hx
  rw [listedValues?_of_beq hx hself, hvalues]
  exact ⟨values, rfl⟩

theorem Reads.exists_mean? : ∃ mean, a.mean? x = .ok mean :=
  exists_bind (h.exists_listedValues? hx hself) fun _ _ => ⟨_, rfl⟩

theorem Reads.exists_variance? : ∃ variance, a.variance? x = .ok variance :=
  exists_bind (h.exists_listedValues? hx hself) fun _ _ => ⟨_, rfl⟩

end Listed

theorem results?_eq_ok {results : List (SettingResult R)} (h : a.results? = .ok results) :
    List.Forall₂ (fun x r => r.setting = x ∧ a.mean? x = .ok r.mean ∧
      a.variance? x = .ok r.variance ∧ r.repetitions = a.repetitions) a.settings results := by
  refine (mapM_eq_ok_iff.mp h).imp fun x r hr => ?_
  obtain ⟨mean, hmean, hr⟩ := bind_eq_ok_iff.mp hr
  obtain ⟨variance, hvariance, hr⟩ := bind_eq_ok_iff.mp hr
  cases hr
  exact ⟨rfl, hmean, hvariance, rfl⟩

theorem Reads.readable (h : a.Reads qubits) (hself : ∀ x ∈ a.settings,
    (x.observable.coefficient == x.observable.coefficient) = true) : a.Readable := by
  have hmean : ∀ x ∈ a.settings, ∃ mean, a.mean? x = .ok mean := fun x hx =>
    h.exists_mean? hx (hself x hx)
  have hvariance : ∀ x ∈ a.settings, ∃ variance, a.variance? x = .ok variance := fun x hx =>
    h.exists_variance? hx (hself x hx)
  obtain ⟨results, hresults⟩ : ∃ results, a.results? = .ok results :=
    exists_mapM fun x hx => exists_bind (hmean x hx) fun _ _ =>
      exists_bind (hvariance x hx) fun _ _ => ⟨_, rfl⟩
  exact ⟨fun _ hx => h.exists_values? hx, hmean, hvariance,
    fun x hx => exists_bind (hvariance x hx) fun _ _ => ⟨_, rfl⟩,
    ⟨results, hresults, results?_eq_ok hresults⟩, h.exists_covariance?⟩

end Accumulator

theorem Estimate.exists_of_readable {accumulators : List (Accumulator R)}
    (h : ∀ a ∈ accumulators, a.Readable) : ∃ e, Estimate.ofAccumulators? accumulators = .ok e := by
  refine exists_bind (exists_foldlM (P := fun _ => True) trivial fun sums a ha _ => ?_)
    fun _ _ => ⟨_, rfl⟩
  obtain ⟨covariances, hcovariances⟩ := (h a ha).covariance
  have hadd : ∃ next, addAccumulator? sums.1 sums.2 a = .ok next :=
    exists_bind (exists_mapM (h a ha).mean) fun _ _ =>
      exists_bind ⟨covariances, liftFault_eq_ok_iff.mpr hcovariances⟩ fun _ _ => ⟨_, rfl⟩
  exact hadd.imp fun _ hnext => ⟨hnext, trivial⟩

/-- Where covariances are defined, the variance policy decides by the number of shots, the number of
settings and the variance alone. -/
theorem VariancePolicy.more_of_covariance? {a : Accumulator R}
    {covariances : List (List (Option R))} (h : a.covariance? = .ok covariances)
    (p : VariancePolicy R) :
    p.more a = .ok (if a.repetitions = 0 then signedWord p.chunk
      else if covariances = [] ∨ isWithin p.bound (a.variancePerTerm covariances) then 0
      else signedWord p.chunk) := by
  unfold more
  by_cases hrep : a.repetitions = 0
  · rw [if_pos hrep, if_pos hrep]
  · rw [if_neg hrep, if_neg hrep, h]
    cases covariances with
    | nil => rfl
    | cons row rest => simp

/-- A measurement that succeeds can be read: if every setting of the groups has a coefficient that
is equal to itself, no statistic of a listed setting is refused, the results follow the settings of
each accumulator with its number of shots, and the estimate over all accumulators is defined. In
every round, also of a measurement that fails, every accumulator has covariances, so the variance
policy never falls back on its answer for missing ones. -/
theorem finished_runs_can_be_read (sampler : Sampler R σ) (criterion : Criterion R κ)
    (config : MeasurementConfig) (c : Circuit R) (groups : List (SettingGroup R))
    (sweep : Sweep R) (fuel : Nat) (s : σ) (t : κ)
    (hself : ∀ g ∈ groups, ∀ x ∈ g.settings,
      (x.observable.coefficient == x.observable.coefficient) = true) :
    (∀ run s' t', measure sampler criterion config c groups sweep fuel s t =
        (some (.ok run), s', t') →
      (∀ a ∈ run.accumulators, a.Readable) ∧
        ∃ estimate, Estimate.ofAccumulators? run.accumulators = .ok estimate) ∧
    ∀ v ∈ measureHistory sampler criterion config c groups sweep fuel s t,
      ∀ a ∈ v.session.accumulators, ∃ covariances, a.covariance? = .ok covariances ∧
        ∀ p : VariancePolicy R, p.more a = .ok (if a.repetitions = 0 then signedWord p.chunk
          else if covariances = [] ∨ isWithin p.bound (a.variancePerTerm covariances) then 0
          else signedWord p.chunk) := by
  constructor
  · intro run s' t' h
    obtain ⟨job, session, hstart, hrun⟩ := exists_run_of_measure h
    have hreadable : ∀ a ∈ run.accumulators, a.Readable := by
      intro a ha
      obtain ⟨hreads, g, hg, hsettings⟩ := Job.readsGroup_of_run hstart hrun a ha
      exact hreads.readable (hsettings ▸ hself g hg)
    exact ⟨hreadable, Estimate.exists_of_readable hreadable⟩
  · intro v hv a ha
    unfold measureHistory at hv
    split at hv
    next => cases hv
    next job session hstart =>
      obtain ⟨hreads, _⟩ := Job.readsGroup_of_mem_history hstart hv a ha
      obtain ⟨covariances, hcovariances⟩ := hreads.exists_covariance?
      exact ⟨covariances, hcovariances, VariancePolicy.more_of_covariance? hcovariances⟩

/-- Two groups, the second with a setting that it lists twice. -/
theorem finished_runs_can_be_read_uneven :
    (∀ g ∈ unevenGroups, ∀ x ∈ g.settings,
      (x.observable.coefficient == x.observable.coefficient) = true) ∧
    ∃ run s t, measure alternatingSampler (StoppingPolicy.repetitions ⟨6, 4⟩).criterion {} ∅
        unevenGroups Sweep.unit 3 0 () = (some (.ok run), s, t) ∧
      run.accumulators.map (fun a => (a.settings.length, a.repetitions)) = [(1, 6), (2, 6)] ∧
      (∀ a ∈ run.accumulators, ∃ results, a.results? = .ok results ∧
        results.map SettingResult.setting = a.settings) ∧
      ∃ estimate, Estimate.ofAccumulators? run.accumulators = .ok estimate := by
  have hself : ∀ g ∈ unevenGroups, ∀ x ∈ g.settings,
      (x.observable.coefficient == x.observable.coefficient) = true := by decide +kernel
  have hok : ((measure alternatingSampler (StoppingPolicy.repetitions ⟨6, 4⟩).criterion {} ∅
      unevenGroups Sweep.unit 3 0 ()).1.bind Except.toOption).map
        (fun run => run.accumulators.map fun a => (a.settings.length, a.repetitions)) =
      some [(1, 6), (2, 6)] := by decide +kernel
  obtain ⟨run, s, t, hrun, hsizes⟩ := exists_of_map_toOption hok
  obtain ⟨hread, _⟩ := finished_runs_can_be_read alternatingSampler
    (StoppingPolicy.repetitions ⟨6, 4⟩).criterion {} ∅ unevenGroups Sweep.unit 3 0 () hself
  obtain ⟨hreadable, hestimate⟩ := hread run s t hrun
  refine ⟨hself, run, s, t, hrun, hsizes, fun a ha => ?_, hestimate⟩
  obtain ⟨results, hresults, hlisted⟩ := (hreadable a ha).results
  refine ⟨results, hresults, ?_⟩
  simpa using (map_eq_map_of_forall₂ (f := id) hlisted fun x r hr => hr.1.symm).symm

end PauliEstimation
