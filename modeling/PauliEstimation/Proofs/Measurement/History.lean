import PauliEstimation.Proofs.Measurement.Rounds

namespace PauliEstimation

/-- A round with the session it starts from. One that ends before the sampler makes no call. -/
structure Visit (R : Type) where
  session : Session R
  call : Option (Call R)

namespace Session

variable {R σ κ : Type} [Scalar R]

/-- The rounds of a run, as far as the fuel lets it go. -/
def history (sampler : Sampler R σ) (criterion : Criterion R κ) (config : MeasurementConfig)
    (job : Job R) : Nat → Session R → σ → κ → List (Visit R)
  | 0, _, _, _ => []
  | fuel + 1, session, s, t =>
    ⟨session, call? sampler criterion config job session s t⟩ ::
      match round sampler criterion config job session s t with
      | (.continued session, s, t) => history sampler criterion config job fuel session s t
      | _ => []

def calls (visits : List (Visit R)) : List (Call R) := visits.filterMap Visit.call

omit [Scalar R] in
@[simp]
theorem calls_cons_some (session : Session R) (call : Call R) (visits : List (Visit R)) :
    calls (⟨session, some call⟩ :: visits) = call :: calls visits := rfl

omit [Scalar R] in
@[simp]
theorem calls_append_none (session : Session R) (visits : List (Visit R)) :
    calls (visits ++ [⟨session, none⟩]) = calls visits := by
  simp [calls]

variable {sampler : Sampler R σ} {criterion : Criterion R κ} {config : MeasurementConfig}
  {job : Job R} {session session' : Session R} {s s' : σ} {t t' : κ}

/-- What holds at the start and is kept by every round that goes on holds of every round. -/
theorem history_invariant {P : Session R → Prop} {fuel : Nat} (start : P session)
    (step : ∀ {session session' : Session R} {s s' : σ} {t t' : κ}, P session →
      round sampler criterion config job session s t = (.continued session', s', t') → P session')
    {v : Visit R} (hv : v ∈ history sampler criterion config job fuel session s t) :
    P v.session ∧ ∃ s t, v.call = call? sampler criterion config job v.session s t := by
  induction fuel generalizing session s t with
  | zero => simp [history] at hv
  | succ fuel ih =>
    rcases List.mem_cons.mp hv with rfl | hv
    · exact ⟨start, s, t, rfl⟩
    · split at hv
      next session' s' t' hr => exact ih (step start hr) hv
      next => simp at hv

/-- What the first of its rounds makes of a run and its history. -/
inductive FirstRound (sampler : Sampler R σ) (criterion : Criterion R κ)
    (config : MeasurementConfig) (job : Job R) (fuel : Nat) (session : Session R) (s : σ) (t : κ) :
    Prop
  | finished {run : MeasurementRun R} {s' : σ} {t' : κ}
      (round_eq : round sampler criterion config job session s t = (.finished run, s', t'))
      (run_eq : Session.run sampler criterion config job (fuel + 1) session s t =
        (some (.ok run), s', t'))
      (history_eq : history sampler criterion config job (fuel + 1) session s t =
        [⟨session, none⟩])
  | failed {e : MeasurementError R} {s' : σ} {t' : κ}
      (round_eq : round sampler criterion config job session s t = (.failed e, s', t'))
      (run_eq : Session.run sampler criterion config job (fuel + 1) session s t =
        (some (.error e), s', t'))
      (history_eq : history sampler criterion config job (fuel + 1) session s t =
        [⟨session, call? sampler criterion config job session s t⟩])
  | continued {call : Call R} {session' : Session R} {s' : σ} {t' : κ}
      (call_eq : call? sampler criterion config job session s t = some call)
      (round_eq : round sampler criterion config job session s t = (.continued session', s', t'))
      (run_eq : Session.run sampler criterion config job (fuel + 1) session s t =
        Session.run sampler criterion config job fuel session' s' t')
      (history_eq : history sampler criterion config job (fuel + 1) session s t =
        ⟨session, some call⟩ :: history sampler criterion config job fuel session' s' t')

theorem firstRound (sampler : Sampler R σ) (criterion : Criterion R κ) (config : MeasurementConfig)
    (job : Job R) (fuel : Nat) (session : Session R) (s : σ) (t : κ) :
    FirstRound sampler criterion config job fuel session s t := by
  cases hr : round sampler criterion config job session s t with
  | mk outcome states =>
    obtain ⟨s', t'⟩ := states
    cases outcome with
    | finished run =>
      exact .finished hr (by rw [Session.run, hr]) (by rw [history, hr, call?_of_finished hr])
    | failed e => exact .failed hr (by rw [Session.run, hr]) (by rw [history, hr])
    | continued session' =>
      obtain ⟨call, _, _, hc, _⟩ := round_eq_continued hr
      exact .continued hc hr (by rw [Session.run, hr]) (by rw [history, hr, hc])

/-- What every round that goes on keeps, given the calls up to it, holds at each round of the calls
before it. -/
theorem history_along {P : List (Call R) → Session R → Prop} {fuel : Nat}
    {before after : List (Visit R)} {v : Visit R} (earlier : List (Call R))
    (start : P earlier session)
    (step : ∀ {calls : List (Call R)} {call : Call R} {session session' : Session R} {s s' : σ}
      {t t' : κ}, P calls session → call? sampler criterion config job session s t = some call →
      round sampler criterion config job session s t = (.continued session', s', t') →
      P (calls ++ [call]) session')
    (h : history sampler criterion config job fuel session s t = before ++ v :: after) :
    P (earlier ++ calls before) v.session := by
  induction before generalizing fuel earlier session s t with
  | nil =>
    cases fuel with
    | zero => simp [history] at h
    | succ fuel =>
      rw [history] at h
      rw [← (List.cons.inj h).1]
      simpa [calls] using start
  | cons w before ih =>
    cases fuel with
    | zero => simp [history] at h
    | succ fuel =>
      cases firstRound sampler criterion config job fuel session s t with
      | finished hr hrun hhistory => simp [hhistory] at h
      | failed hr hrun hhistory => simp [hhistory] at h
      | @continued call session' s' t' hc hr hrun hhistory =>
        rw [hhistory] at h
        obtain ⟨hw, htail⟩ := List.cons.inj h
        have hlater := ih (earlier ++ [call]) (step start hc hr) htail
        rw [← hw, calls_cons_some]
        simpa using hlater

/-- The round that finishes a run is the last one of its history and makes no call. -/
theorem run_eq_ok {P : Session R → Prop} {fuel : Nat} {run : MeasurementRun R} (start : P session)
    (step : ∀ {session session' : Session R} {s s' : σ} {t t' : κ}, P session →
      round sampler criterion config job session s t = (.continued session', s', t') → P session')
    (h : Session.run sampler criterion config job fuel session s t = (some (.ok run), s', t')) :
    ∃ before last s₁ t₁, P last ∧
      round sampler criterion config job last s₁ t₁ = (.finished run, s', t') ∧
      history sampler criterion config job fuel session s t = before ++ [⟨last, none⟩] := by
  induction fuel generalizing session s t with
  | zero => simp [Session.run] at h
  | succ fuel ih =>
    cases firstRound sampler criterion config job fuel session s t with
    | finished hr hrun hhistory =>
      cases hrun.symm.trans h
      exact ⟨[], session, s, t, start, hr, hhistory⟩
    | failed hr hrun hhistory => cases hrun.symm.trans h
    | continued hc hr hrun hhistory =>
      obtain ⟨before, last, s₁, t₁, hlast, hfinish, hlater⟩ := ih (step start hr) (hrun ▸ h)
      exact ⟨_ :: before, last, s₁, t₁, hlast, hfinish, by rw [hhistory, hlater, List.cons_append]⟩

theorem continued_of_run_eq_ok {P : Session R → Prop} {fuel : Nat} {run : MeasurementRun R}
    (start : P session)
    (step : ∀ {session session' : Session R} {s s' : σ} {t t' : κ}, P session →
      round sampler criterion config job session s t = (.continued session', s', t') → P session')
    (h : Session.run sampler criterion config job fuel session s t = (some (.ok run), s', t'))
    {v : Visit R} (hv : v ∈ history sampler criterion config job fuel session s t) {call : Call R}
    (hc : v.call = some call) :
    P v.session ∧ ∃ s₁ t₁ session' s₂ t₂,
      call? sampler criterion config job v.session s₁ t₁ = some call ∧
      round sampler criterion config job v.session s₁ t₁ = (.continued session', s₂, t₂) := by
  induction fuel generalizing session s t with
  | zero => simp [history] at hv
  | succ fuel ih =>
    cases firstRound sampler criterion config job fuel session s t with
    | finished hr hrun hhistory =>
      rw [hhistory] at hv
      obtain rfl : v = ⟨session, none⟩ := List.mem_singleton.mp hv
      cases hc
    | failed hr hrun hhistory => cases hrun.symm.trans h
    | @continued call' session' s₁ t₁ hcall hr hrun hhistory =>
      rw [hhistory] at hv
      rcases List.mem_cons.mp hv with rfl | hv
      · exact ⟨start, s, t, session', s₁, t₁, hcall.trans hc, hr⟩
      · exact ih (step start hr) (hrun ▸ h) hv

/-- The round that fails a run is the last one of its history. -/
theorem run_eq_error {P : Session R → Prop} {fuel : Nat} {e : MeasurementError R}
    (start : P session)
    (step : ∀ {session session' : Session R} {s s' : σ} {t t' : κ}, P session →
      round sampler criterion config job session s t = (.continued session', s', t') → P session')
    (h : Session.run sampler criterion config job fuel session s t = (some (.error e), s', t')) :
    ∃ before last s₁ t₁, P last ∧
      round sampler criterion config job last s₁ t₁ = (.failed e, s', t') ∧
      history sampler criterion config job fuel session s t =
        before ++ [⟨last, call? sampler criterion config job last s₁ t₁⟩] := by
  induction fuel generalizing session s t with
  | zero => simp [Session.run] at h
  | succ fuel ih =>
    cases firstRound sampler criterion config job fuel session s t with
    | finished hr hrun hhistory => cases hrun.symm.trans h
    | failed hr hrun hhistory =>
      cases hrun.symm.trans h
      exact ⟨[], session, s, t, start, hr, hhistory⟩
    | continued hc hr hrun hhistory =>
      obtain ⟨before, last, s₁, t₁, hlast, hfail, hlater⟩ := ih (step start hr) (hrun ▸ h)
      exact ⟨_ :: before, last, s₁, t₁, hlast, hfail, by rw [hhistory, hlater, List.cons_append]⟩

/-- From each of its rounds on, a run goes as it would go if it started there. -/
theorem history_suffix {fuel : Nat} {before after : List (Visit R)} {v : Visit R}
    (h : history sampler criterion config job fuel session s t = before ++ v :: after) :
    ∃ fuel' s' t', v :: after = history sampler criterion config job fuel' v.session s' t' ∧
      Session.run sampler criterion config job fuel session s t =
        Session.run sampler criterion config job fuel' v.session s' t' := by
  induction before generalizing fuel session s t with
  | nil =>
    cases fuel with
    | zero => simp [history] at h
    | succ fuel =>
      have hv : v.session = session := by
        rw [history] at h
        rw [← (List.cons.inj h).1]
      rw [hv]
      exact ⟨fuel + 1, s, t, by rw [h, List.nil_append], rfl⟩
  | cons w before ih =>
    cases fuel with
    | zero => simp [history] at h
    | succ fuel =>
      cases firstRound sampler criterion config job fuel session s t with
      | finished hr hrun hhistory => simp [hhistory] at h
      | failed hr hrun hhistory => simp [hhistory] at h
      | continued hc hr hrun hhistory =>
        rw [hhistory] at h
        rw [hrun]
        exact ih (List.cons.inj h).2

/-- The requests that reach the sampler, latest first, are those of the history's calls. -/
theorem run_recording (fuel : Nat) (log : List (SweepRequest R)) :
    Session.run sampler.recording criterion config job fuel session (log, s) t =
      ((Session.run sampler criterion config job fuel session s t).1,
        (((calls (history sampler criterion config job fuel session s t)).map
            Call.request).reverse ++ log,
          (Session.run sampler criterion config job fuel session s t).2.1),
        (Session.run sampler criterion config job fuel session s t).2.2) := by
  induction fuel generalizing session s t log with
  | zero => simp [Session.run, history, calls]
  | succ fuel ih =>
    rw [Session.run, round_recording]
    cases firstRound sampler criterion config job fuel session s t with
    | finished hr hrun hhistory =>
      rw [hr, hrun, hhistory, call?_of_finished hr]
      rfl
    | failed hr hrun hhistory =>
      rw [hr, hrun, hhistory]
      cases call? sampler criterion config job session s t <;> rfl
    | continued hc hr hrun hhistory =>
      rw [hr, hrun, hhistory, hc, calls_cons_some, List.map_cons, List.reverse_cons,
        List.append_assoc]
      exact ih _

end Session

theorem Job.start?_eq_ok {R : Type} [Scalar R] {c : Circuit R} {groups : List (SettingGroup R)}
    {sweep : Sweep R} {job : Job R} {session : Session R}
    (h : start? c groups sweep = .ok (job, session)) :
    ∃ blocks, groups.mapM (groupAccumulators? (qubitsOf groups) sweep) = .ok blocks ∧
      job = ⟨BasisChange.template c (qubitsOf groups)
          (BasisChange.needsInitial (groups.map SettingGroup.max)), qubitsOf groups,
        BasisChange.needsInitial (groups.map SettingGroup.max),
        blocks.flatten.map Accumulator.spec⟩ ∧
      session = ⟨List.range blocks.flatten.length, blocks.flatten, [], 0⟩ := by
  obtain ⟨blocks, hb, h⟩ := bind_eq_ok_iff.mp h
  cases h
  exact ⟨blocks, hb, rfl, rfl⟩

/-- The rounds of a measurement. One that its groups keep from starting has none. -/
def measureHistory {R σ κ : Type} [Scalar R] (sampler : Sampler R σ) (criterion : Criterion R κ)
    (config : MeasurementConfig) (c : Circuit R) (groups : List (SettingGroup R))
    (sweep : Sweep R) (fuel : Nat) (s : σ) (t : κ) : List (Visit R) :=
  match Job.start? c groups sweep with
  | .error _ => []
  | .ok (job, session) => Session.history sampler criterion config job fuel session s t

/-- A measurement that starts goes on as the run of its first session. -/
theorem measure_of_start? {R σ κ : Type} [Scalar R] {c : Circuit R}
    {groups : List (SettingGroup R)} {sweep : Sweep R} {job : Job R} {session : Session R}
    (h : Job.start? c groups sweep = .ok (job, session)) (sampler : Sampler R σ)
    (criterion : Criterion R κ) (config : MeasurementConfig) (fuel : Nat) (s : σ) (t : κ) :
    measure sampler criterion config c groups sweep fuel s t =
        Session.run sampler criterion config job fuel session s t ∧
      measureHistory sampler criterion config c groups sweep fuel s t =
        Session.history sampler criterion config job fuel session s t := by
  unfold measure measureHistory
  rw [h]
  exact ⟨rfl, rfl⟩

theorem exists_run_of_measure {R σ κ : Type} [Scalar R] {sampler : Sampler R σ}
    {criterion : Criterion R κ} {config : MeasurementConfig} {c : Circuit R}
    {groups : List (SettingGroup R)} {sweep : Sweep R} {fuel : Nat} {s s' : σ} {t t' : κ}
    {run : MeasurementRun R}
    (h : measure sampler criterion config c groups sweep fuel s t = (some (.ok run), s', t')) :
    ∃ job session, Job.start? c groups sweep = .ok (job, session) ∧
      Session.run sampler criterion config job fuel session s t = (some (.ok run), s', t') := by
  unfold measure at h
  cases hstart : Job.start? c groups sweep with
  | error e => simp [hstart] at h
  | ok started =>
    rw [hstart] at h
    exact ⟨started.1, started.2, rfl, h⟩

theorem measure_recording {R σ κ : Type} [Scalar R] (sampler : Sampler R σ)
    (criterion : Criterion R κ) (config : MeasurementConfig) (c : Circuit R)
    (groups : List (SettingGroup R)) (sweep : Sweep R) (fuel : Nat) (s : σ) (t : κ) :
    (measure sampler.recording criterion config c groups sweep fuel ([], s) t).2.1.1 =
      ((Session.calls (measureHistory sampler criterion config c groups sweep fuel s t)).map
        Call.request).reverse := by
  unfold measure measureHistory
  cases Job.start? c groups sweep with
  | error e => simp [Session.calls]
  | ok started =>
    obtain ⟨job, session⟩ := started
    simp [Session.run_recording]

/-- A sampler that counts its calls. In call `n` the bits of point `i` are set when `n + i` is
odd. -/
def alternatingSampler : Sampler Float Nat := fun request n =>
  let width := (request.program.measurements.flatMap Prod.snd).length
  (.ok (request.sweep.points.zipIdx.map fun e => ⟨e.1, Bindings.empty.set BasisChange.key
    (BitMatrix.replicate request.repetitions (List.replicate width ((n + e.2) % 2 == 1)))⟩), n + 1)

def readingZ (q : Qubit) : Setting Float := Setting.ofObservable (PauliString.single q .z)

/-- One setting on qubit 0, and two on qubit 1. -/
def unevenGroups : List (SettingGroup Float) :=
  [⟨readingZ ⟨0⟩, [readingZ ⟨0⟩]⟩, ⟨readingZ ⟨1⟩, [readingZ ⟨1⟩, readingZ ⟨1⟩]⟩]

end PauliEstimation
