import PauliEstimation.Proofs.Measurement.Attribution
import PauliEstimation.Proofs.Measurement.Routing

namespace PauliEstimation

variable {R σ κ : Type} [Scalar R]

namespace Session

/-- Sampler calls, one after the other, that are planned, submitted, answered and taken in. How many
rounds are allowed does not matter. -/
inductive TakesIn (sampler : Sampler R σ) (criterion : Criterion R κ) (config : MeasurementConfig)
    (job : Job R) : List (SweepRequest R) → Session R → σ → κ → Session R → σ → κ → Prop where
  | nil {session : Session R} {s : σ} {t : κ} :
      TakesIn sampler criterion config job [] session s t session s t
  | cons {session last : Session R} {s s₁ s' : σ} {t t₁ t' : κ} {plan : Plan}
      {variants : List (Variant R)} {request : SweepRequest R} {requests : List (SweepRequest R)}
      {results : List (PointResult R)} {accumulators : List (Accumulator R)}
      (hplan : Plan.next criterion session.accumulators config.maxRepetitionsPerJob session.pending
        t = (.ok plan, t₁)) (hpending : plan.pending ≠ [])
      (hsubmitted : submission? job config plan = .ok (variants, request))
      (hanswer : sampler request s = (.ok results, s₁))
      (hdelivered : deliver? variants results session.accumulators = .ok accumulators)
      (hrest : TakesIn sampler criterion config job requests
        ⟨plan.pending, accumulators, session.notices ++ plan.notices, session.rounds + 1⟩ s₁ t₁
        last s' t') :
      TakesIn sampler criterion config job (request :: requests) session s t last s' t'

omit [Scalar R] in
theorem limitReached?_eq_some_iff {config : MeasurementConfig} {rounds limit : Nat} :
    limitReached? config rounds = some limit ↔ config.maxRounds = some limit ∧ limit ≤ rounds := by
  rw [limitReached?, Option.filter_eq_some_iff, decide_eq_true_eq]

omit [Scalar R] in
theorem limitReached?_eq_none_iff {config : MeasurementConfig} {rounds : Nat} :
    limitReached? config rounds = none ↔
      ∀ limit, config.maxRounds = some limit → rounds < limit := by
  rw [limitReached?, Option.filter_eq_none_iff]
  exact forall₂_congr fun limit _ => by rw [decide_eq_true_eq, Nat.not_le]

variable {sampler : Sampler R σ} {criterion : Criterion R κ} {config : MeasurementConfig}
  {job : Job R} {session session' last : Session R} {s s' : σ} {t t' : κ} {limit : Nat}

theorem rounds_of_continued (hmax : config.maxRounds = some limit)
    (h : round sampler criterion config job session s t = (.continued session', s', t')) :
    session.rounds < limit ∧ session'.rounds = session.rounds + 1 := by
  obtain ⟨call, _, _, hc, _, _, rfl⟩ := round_eq_continued h
  exact ⟨limitReached?_eq_none_iff.mp (call?_eq_some hc).2.2.1 limit hmax, rfl⟩

theorem takesIn_of_continued
    (h : round sampler criterion config job session s t = (.continued session', s', t')) :
    ∃ call, call? sampler criterion config job session s t = some call ∧
      ∀ {requests : List (SweepRequest R)} {last : Session R} {s₁ : σ} {t₁ : κ},
        TakesIn sampler criterion config job requests session' s' t' last s₁ t₁ →
        TakesIn sampler criterion config job (call.request :: requests) session s t last s₁ t₁ := by
  obtain ⟨call, results, accumulators, hc, ha, hd, rfl⟩ := round_eq_continued h
  obtain ⟨hplan, hpending, _, hsubmitted, hanswer⟩ := call?_eq_some hc
  have hround := round_of_call? hc
  rw [h] at hround
  obtain ⟨rfl, rfl⟩ := Prod.mk.inj (Prod.mk.inj hround).2
  exact ⟨call, hc, fun hrest => .cons (Prod.ext hplan rfl) hpending hsubmitted
    (Prod.ext (hanswer.symm.trans ha) rfl) hd hrest⟩

theorem TakesIn.run_eq {requests : List (SweepRequest R)}
    (h : TakesIn sampler criterion config job requests session s t last s' t')
    (hmax : config.maxRounds = some limit) (hleft : session.rounds + requests.length ≤ limit)
    (fuel : Nat) :
    Session.run sampler criterion config job (requests.length + fuel) session s t =
        Session.run sampler criterion config job fuel last s' t' ∧
      last.rounds = session.rounds + requests.length := by
  induction h with
  | nil => exact ⟨by rw [List.length_nil, Nat.zero_add], rfl⟩
  | @cons session last s s₁ s' t t₁ t' plan variants request requests results accumulators hplan
      hpending hsubmitted hanswer hdelivered _ ih =>
    rw [List.length_cons] at hleft ⊢
    have hlimit : limitReached? config session.rounds = none := by
      refine limitReached?_eq_none_iff.mpr fun bound hbound => ?_
      obtain rfl : limit = bound := Option.some.inj (hmax.symm.trans hbound)
      omega
    obtain ⟨hrun, hrounds⟩ := ih (by dsimp only; omega)
    have hround : round sampler criterion config job session s t = (.continued ⟨plan.pending,
        accumulators, session.notices ++ plan.notices, session.rounds + 1⟩, s₁, t₁) := by
      unfold round
      simp only [hplan, hpending, if_false, hlimit, hsubmitted, hanswer, hdelivered]
    refine ⟨?_, by rw [hrounds]; dsimp only; omega⟩
    rw [Nat.add_right_comm, Session.run, hround]
    exact hrun

theorem takesIn_of_run_eq_error {P : Session R → Prop} {fuel : Nat} {e : MeasurementError R}
    (start : P session)
    (step : ∀ {session session' : Session R} {s s' : σ} {t t' : κ}, P session →
      round sampler criterion config job session s t = (.continued session', s', t') → P session')
    (h : (Session.run sampler criterion config job fuel session s t).1 = some (.error e)) :
    ∃ requests last s₁ t₁, P last ∧
      TakesIn sampler criterion config job requests session s t last s₁ t₁ ∧
      (round sampler criterion config job last s₁ t₁).1 = .failed e ∧
      (calls (history sampler criterion config job fuel session s t)).map Call.request =
        requests ++ (call? sampler criterion config job last s₁ t₁).toList.map Call.request := by
  induction fuel generalizing session s t with
  | zero => cases h
  | succ fuel ih =>
    cases firstRound sampler criterion config job fuel session s t with
    | finished hr hrun hhistory =>
      rw [hrun] at h
      cases h
    | failed hr hrun hhistory =>
      -- the call of this round, if one is made, is the only one that is not taken in
      rw [hrun] at h
      obtain rfl := Except.error.inj (Option.some.inj h)
      refine ⟨[], session, s, t, start, .nil, by rw [hr], ?_⟩
      rw [hhistory]
      cases call? sampler criterion config job session s t <;> rfl
    | @continued call session' s₁ t₁ hc hr hrun hhistory =>
      obtain ⟨taken, htaken, htake⟩ := takesIn_of_continued hr
      obtain rfl : call = taken := Option.some.inj (hc.symm.trans htaken)
      obtain ⟨requests, last, s₂, t₂, hlast, hrest, hfail, hcalls⟩ :=
        ih (step start hr) (hrun ▸ h)
      refine ⟨call.request :: requests, last, s₂, t₂, hlast, htake hrest, hfail, ?_⟩
      rw [hhistory, calls_cons_some, List.map_cons, List.cons_append]
      exact congrArg (List.cons _) hcalls

theorem calls_le_limit {fuel : Nat} (hmax : config.maxRounds = some limit)
    (hrounds : session.rounds ≤ limit) :
    session.rounds + (calls (history sampler criterion config job fuel session s t)).length ≤
      limit := by
  induction fuel generalizing session s t with
  | zero => exact hrounds
  | succ fuel ih =>
    cases firstRound sampler criterion config job fuel session s t with
    | finished hr hrun hhistory =>
      rw [hhistory]
      exact hrounds
    | failed hr hrun hhistory =>
      rw [hhistory]
      cases hc : call? sampler criterion config job session s t with
      | none => exact hrounds
      | some call => exact limitReached?_eq_none_iff.mp (call?_eq_some hc).2.2.1 limit hmax
    | @continued call session' s₁ t₁ hc hr hrun hhistory =>
      obtain ⟨hlt, hnext⟩ := rounds_of_continued hmax hr
      have hlater : session'.rounds +
          (calls (history sampler criterion config job fuel session' s₁ t₁)).length ≤ limit :=
        ih (by omega)
      rw [hhistory, calls_cons_some, List.length_cons]
      omega

/-- Every round that goes on uses up one of those that are left, so the fuel does not run out. -/
theorem exists_run_of_limit {fuel : Nat} (hmax : config.maxRounds = some limit)
    (hrounds : session.rounds ≤ limit) (hfuel : limit < session.rounds + fuel) :
    ∃ result, (Session.run sampler criterion config job fuel session s t).1 = some result := by
  induction fuel generalizing session s t with
  | zero => omega
  | succ fuel ih =>
    cases firstRound sampler criterion config job fuel session s t with
    | finished hr hrun hhistory => exact ⟨_, by rw [hrun]⟩
    | failed hr hrun hhistory => exact ⟨_, by rw [hrun]⟩
    | continued hc hr hrun hhistory =>
      obtain ⟨hlt, hnext⟩ := rounds_of_continued hmax hr
      rw [hrun]
      exact ih (by omega) (by omega)

theorem round_eq_roundLimitExceeded (hl : session.LaidOut job) (hcover : job.Covers)
    (h : (round sampler criterion config job session s t).1 = .failed (.roundLimitExceeded limit)) :
    call? sampler criterion config job session s t = none ∧
      limitReached? config session.rounds = some limit ∧
      ∃ plan, (Plan.next criterion session.accumulators config.maxRepetitionsPerJob session.pending
        t).1 = .ok plan ∧ plan.pending ≠ [] := by
  rcases round_failed_cases hl hcover (Prod.ext h rfl) with ⟨hc, hrefuses⟩ | ⟨call, _, hfaults⟩
  · cases hrefuses with
    | plan hn =>
      rcases Plan.next_eq_error hn with hask | ⟨_, _, hsweeps⟩
      · obtain ⟨_, _, hnegative, _⟩ | ⟨_, hfault, _⟩ := Plan.ask_eq_error hask
        · cases hnegative
        · cases hfault
      · cases hsweeps
    | limit hn hp hlimit => exact ⟨hc, hlimit, _, hn, hp⟩
  · cases hfaults

/-- A run that fails for its limit has taken in as many calls, and something is still pending. -/
theorem takesIn_of_roundLimitExceeded {fuel n : Nat} (hl : session.LaidOut job)
    (hcover : job.Covers) (hmax : config.maxRounds = some limit) (hrounds : session.rounds = 0)
    (h : (Session.run sampler criterion config job fuel session s t).1 =
      some (.error (.roundLimitExceeded n))) :
    n = limit ∧ ∃ last s' t' plan t'',
      (calls (history sampler criterion config job fuel session s t)).length = limit ∧
      TakesIn sampler criterion config job
        ((calls (history sampler criterion config job fuel session s t)).map Call.request)
        session s t last s' t' ∧
      Plan.next criterion last.accumulators config.maxRepetitionsPerJob last.pending t' =
        (.ok plan, t'') ∧ plan.pending ≠ [] := by
  obtain ⟨requests, last, s', t', hlast, htaken, hfail, hcalls⟩ := takesIn_of_run_eq_error
    (P := fun session => session.LaidOut job) hl (fun hl hr => round_keeps_laidOut hl hr) h
  obtain ⟨hnone, hlimit, plan, hplan, hpending⟩ := round_eq_roundLimitExceeded hlast hcover hfail
  obtain ⟨hsame, hle⟩ := limitReached?_eq_some_iff.mp hlimit
  obtain rfl : limit = n := Option.some.inj (hmax.symm.trans hsame)
  rw [hnone, Option.toList_none, List.map_nil, List.append_nil] at hcalls
  have hlength : (calls (history sampler criterion config job fuel session s t)).length =
      requests.length := by rw [← hcalls, List.length_map]
  have hcount : session.rounds +
      (calls (history sampler criterion config job fuel session s t)).length ≤ limit :=
    calls_le_limit hmax (by omega)
  have hlastRounds := (htaken.run_eq hmax (by omega) 0).2
  exact ⟨rfl, last, s', t', plan, _, by omega, hcalls ▸ htaken, Prod.ext hplan rfl, hpending⟩

/-- As many calls as the limit allows, and something still pending, are all it takes. -/
theorem TakesIn.run_eq_roundLimitExceeded {fuel : Nat} {requests : List (SweepRequest R)}
    {plan : Plan} {t'' : κ}
    (h : TakesIn sampler criterion config job requests session s t last s' t')
    (hmax : config.maxRounds = some limit) (hrounds : session.rounds = 0)
    (hlength : requests.length = limit) (hfuel : limit < fuel)
    (hplan : Plan.next criterion last.accumulators config.maxRepetitionsPerJob last.pending t' =
      (.ok plan, t'')) (hpending : plan.pending ≠ []) :
    (Session.run sampler criterion config job fuel session s t).1 =
      some (.error (.roundLimitExceeded limit)) := by
  obtain ⟨rest, rfl⟩ : ∃ rest, fuel = requests.length + (rest + 1) :=
    ⟨fuel - limit - 1, by omega⟩
  obtain ⟨hrun, hlast⟩ := h.run_eq hmax (by omega) (rest + 1)
  have hlimit : limitReached? config last.rounds = some limit :=
    limitReached?_eq_some_iff.mpr ⟨hmax, by omega⟩
  have hround : round sampler criterion config job last s' t' =
      (.failed (.roundLimitExceeded limit), s', t'') := by
    unfold round
    simp only [hplan, hpending, if_false, hlimit]
  rw [hrun, Session.run, hround]

end Session

theorem rounds_eq_length_calls {sampler : Sampler R σ} {criterion : Criterion R κ}
    {config : MeasurementConfig} {c : Circuit R} {groups : List (SettingGroup R)}
    {sweep : Sweep R} {fuel : Nat} {s s' : σ} {t t' : κ} {run : MeasurementRun R}
    (h : measure sampler criterion config c groups sweep fuel s t = (some (.ok run), s', t')) :
    run.rounds =
      (Session.calls (measureHistory sampler criterion config c groups sweep fuel s t)).length := by
  obtain ⟨job, session, hstart, hrun⟩ := exists_run_of_measure h
  obtain ⟨_, hhistory⟩ := measure_of_start? hstart sampler criterion config fuel s t
  obtain ⟨_, _, _, rfl⟩ := Job.start?_eq_ok hstart
  obtain ⟨_, hrounds, _⟩ := Session.run_extends List.nodup_range hrun
  rw [hhistory, hrounds, Nat.zero_add]

/-- A measurement with a limit ends, after at most so many calls. It fails for the limit exactly when
all of them are made and taken in and the next plan succeeds with something pending. With any limit
or none, the rounds of a result are the calls. -/
theorem round_limit_is_exact (sampler : Sampler R σ) (criterion : Criterion R κ)
    (config : MeasurementConfig) (c : Circuit R) (groups : List (SettingGroup R))
    (sweep : Sweep R) (limit fuel : Nat) (s : σ) (t : κ) (hfuel : limit < fuel) :
    let limited : MeasurementConfig := { config with maxRounds := some limit }
    let outcome := measure sampler criterion limited c groups sweep fuel s t
    let requests :=
      (measure sampler.recording criterion limited c groups sweep fuel ([], s) t).2.1.1.reverse
    (∃ result, outcome.1 = some result) ∧ requests.length ≤ limit ∧
    (∀ n, outcome.1 = some (.error (.roundLimitExceeded n)) ↔ n = limit ∧ requests.length = limit ∧
      ∃ job session last s' t' plan t'', Job.start? c groups sweep = .ok (job, session) ∧
        Session.TakesIn sampler criterion limited job requests session s t last s' t' ∧
        Plan.next criterion last.accumulators limited.maxRepetitionsPerJob last.pending t' =
          (.ok plan, t'') ∧ plan.pending ≠ []) ∧
    ∀ maxRounds fuel run s' t',
      measure sampler criterion { config with maxRounds } c groups sweep fuel s t =
        (some (.ok run), s', t') →
      run.rounds = (measure sampler.recording criterion { config with maxRounds } c groups sweep fuel
        ([], s) t).2.1.1.length := by
  intro limited outcome requests
  have hrequests : requests = (Session.calls (measureHistory sampler criterion limited c groups
      sweep fuel s t)).map Call.request := by
    rw [← List.reverse_reverse (List.map _ _), ← measure_recording]
  have hrounds : ∀ maxRounds fuel run s' t',
      measure sampler criterion { config with maxRounds } c groups sweep fuel s t =
        (some (.ok run), s', t') →
      run.rounds = (measure sampler.recording criterion { config with maxRounds } c groups sweep fuel
        ([], s) t).2.1.1.length := by
    intro maxRounds fuel run s' t' h
    rw [measure_recording, List.length_reverse, List.length_map]
    exact rounds_eq_length_calls h
  cases hstart : Job.start? c groups sweep with
  | error e =>
    have houtcome : outcome = (some (.error e), s, t) := by simp only [outcome, measure, hstart]
    have hnone : requests = [] := by
      rw [hrequests]
      simp only [measureHistory, hstart, Session.calls, List.filterMap_nil, List.map_nil]
    refine ⟨⟨_, by rw [houtcome]⟩, by simp [hnone], fun n => ⟨fun h => ?_, ?_⟩, hrounds⟩
    · rw [houtcome] at h
      have hrejection := Job.start?_isRejection hstart
      rw [Except.error.inj (Option.some.inj h)] at hrejection
      cases hrejection
    · rintro ⟨_, _, _, _, _, _, _, _, _, hok, _⟩
      cases hok
  | ok started =>
    obtain ⟨job, session⟩ := started
    obtain ⟨houtcome, hhistory⟩ := measure_of_start? hstart sampler criterion limited fuel s t
    have hzero : session.rounds = 0 := by
      obtain ⟨_, _, _, rfl⟩ := Job.start?_eq_ok hstart
      rfl
    rw [hhistory] at hrequests
    have hmax : limited.maxRounds = some limit := rfl
    refine ⟨?_, ?_, fun n => ⟨fun h => ?_, ?_⟩, hrounds⟩
    · simp only [outcome, houtcome]
      exact Session.exists_run_of_limit hmax (by omega) (by omega)
    · have hle : session.rounds + (Session.calls
          (Session.history sampler criterion limited job fuel session s t)).length ≤ limit :=
        Session.calls_le_limit hmax (by omega)
      rw [hrequests, List.length_map]
      omega
    · simp only [outcome, houtcome] at h
      obtain ⟨rfl, last, s', t', plan, t'', hlength, htaken, hplan, hpending⟩ :=
        Session.takesIn_of_roundLimitExceeded (Job.start?_laidOut hstart)
          (Job.start?_covers hstart) hmax hzero h
      rw [hrequests, List.length_map]
      exact ⟨rfl, hlength, job, session, last, s', t', plan, t'', rfl, htaken, hplan, hpending⟩
    · rintro ⟨rfl, hlength, _, _, last, s', t', plan, t'', hok, htaken, hplan, hpending⟩
      cases hok
      simp only [outcome, houtcome]
      exact htaken.run_eq_roundLimitExceeded hmax hzero hlength hfuel hplan hpending

/-- A criterion that is never done uses up two rounds, in which both calls are taken in. -/
theorem round_limit_is_exact_endless :
    2 < 3 ∧ ∃ s last s' t' plan t'' job session r₀ r₁,
      measure alternatingSampler (Criterion.ofFunction fun _ => .ok 5) ⟨1000, false, some 2⟩ ∅
        unevenGroups Sweep.unit 3 0 () = (some (.error (.roundLimitExceeded 2)), s, ()) ∧
      Job.start? ∅ unevenGroups Sweep.unit = .ok (job, session) ∧
      Session.TakesIn alternatingSampler (Criterion.ofFunction fun _ => .ok 5)
        ⟨1000, false, some 2⟩ job [r₀, r₁] session 0 () last s' t' ∧
      Plan.next (Criterion.ofFunction fun _ => .ok 5) last.accumulators 1000 last.pending t' =
        (.ok plan, t'') ∧ plan.pending ≠ [] := by
  obtain ⟨s, hs⟩ : ∃ s, measure alternatingSampler (Criterion.ofFunction fun _ => .ok 5)
      ⟨1000, false, some 2⟩ ∅ unevenGroups Sweep.unit 3 0 () =
        (some (.error (.roundLimitExceeded 2)), s, ()) := ⟨_, rfl⟩
  obtain ⟨_, _, hexact, _⟩ := round_limit_is_exact alternatingSampler
    (Criterion.ofFunction fun _ => .ok 5) ⟨1000, false, none⟩ ∅ unevenGroups Sweep.unit 2 3 0 ()
    (by decide)
  obtain ⟨_, hlength, job, session, last, s', t', plan, t'', hstart, htaken, hplan, hpending⟩ :=
    (hexact 2).mp (congrArg Prod.fst hs)
  obtain ⟨r₀, r₁, htwo⟩ := List.length_eq_two.mp hlength
  rw [htwo] at htaken
  exact ⟨by decide, s, last, s', t', plan, t'', job, session, r₀, r₁, hs, hstart, htaken, hplan,
    hpending⟩

end PauliEstimation
