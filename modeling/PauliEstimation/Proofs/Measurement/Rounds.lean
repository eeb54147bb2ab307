import PauliEstimation.Proofs.Measurement.Planning

namespace PauliEstimation

/-- A sampler call: the plan it serves, the variants behind the points of its request, and what the
sampler answers. -/
structure Call (R : Type) where
  plan : Plan
  variants : List (Variant R)
  request : SweepRequest R
  answer : Except String (List (PointResult R))

/-- Point by point, the sweep of the call binds what its variants bind. -/
def Call.Binds {R : Type} [Scalar R] (call : Call R) (qubits : List Qubit) (needsInitial : Bool) :
    Prop :=
  List.Forall₂ (fun v b => v.bindings? qubits needsInitial = .ok b) call.variants
    call.request.sweep.points

namespace Session

variable {R σ κ : Type} [Scalar R]

/-- The sampler call that a round makes, if it gets that far. -/
def call? (sampler : Sampler R σ) (criterion : Criterion R κ) (config : MeasurementConfig)
    (job : Job R) (session : Session R) (s : σ) (t : κ) : Option (Call R) :=
  match (Plan.next criterion session.accumulators config.maxRepetitionsPerJob session.pending
      t).1 with
  | .error _ => none
  | .ok plan =>
    if plan.pending = [] then none
    else match limitReached? config session.rounds with
      | some _ => none
      | none => match submission? job config plan with
        | .error _ => none
        | .ok (variants, request) => some ⟨plan, variants, request, (sampler request s).1⟩

variable {sampler : Sampler R σ} {criterion : Criterion R κ} {config : MeasurementConfig}
  {job : Job R} {session session' : Session R} {s s' : σ} {t t' : κ}

/-- How far a round gets, with its call and what it comes to. -/
inductive Course (sampler : Sampler R σ) (criterion : Criterion R κ) (config : MeasurementConfig)
    (job : Job R) (session : Session R) (s : σ) (t : κ) : Prop
  | unplanned {e : MeasurementError R} {t' : κ}
      (next_eq : Plan.next criterion session.accumulators config.maxRepetitionsPerJob
        session.pending t = (.error e, t'))
      (call_eq : call? sampler criterion config job session s t = none)
      (round_eq : round sampler criterion config job session s t = (.failed e, s, t'))
  | done {plan : Plan} {t' : κ}
      (next_eq : Plan.next criterion session.accumulators config.maxRepetitionsPerJob
        session.pending t = (.ok plan, t'))
      (pending_eq : plan.pending = [])
      (call_eq : call? sampler criterion config job session s t = none)
      (round_eq : round sampler criterion config job session s t =
        (.finished ⟨session.accumulators, session.notices ++ plan.notices, session.rounds⟩, s, t'))
  | limited {plan : Plan} {limit : Nat} {t' : κ}
      (next_eq : Plan.next criterion session.accumulators config.maxRepetitionsPerJob
        session.pending t = (.ok plan, t'))
      (pending_ne : plan.pending ≠ []) (limit_eq : limitReached? config session.rounds = some limit)
      (call_eq : call? sampler criterion config job session s t = none)
      (round_eq : round sampler criterion config job session s t =
        (.failed (.roundLimitExceeded limit), s, t'))
  | unsubmitted {plan : Plan} {e : MeasurementError R} {t' : κ}
      (next_eq : Plan.next criterion session.accumulators config.maxRepetitionsPerJob
        session.pending t = (.ok plan, t'))
      (pending_ne : plan.pending ≠ []) (limit_eq : limitReached? config session.rounds = none)
      (submission_eq : submission? job config plan = .error e)
      (call_eq : call? sampler criterion config job session s t = none)
      (round_eq : round sampler criterion config job session s t = (.failed e, s, t'))
  | called (call : Call R) {t' : κ}
      (next_eq : Plan.next criterion session.accumulators config.maxRepetitionsPerJob
        session.pending t = (.ok call.plan, t'))
      (pending_ne : call.plan.pending ≠ []) (limit_eq : limitReached? config session.rounds = none)
      (submission_eq : submission? job config call.plan = .ok (call.variants, call.request))
      (answer_eq : call.answer = (sampler call.request s).1)
      (call_eq : call? sampler criterion config job session s t = some call)
      (round_eq : round sampler criterion config job session s t =
        (match call.answer with
          | .error cause => .failed (.sampler cause)
          | .ok results => match deliver? call.variants results session.accumulators with
            | .error e => .failed e
            | .ok accumulators => .continued ⟨call.plan.pending, accumulators,
                session.notices ++ call.plan.notices, session.rounds + 1⟩,
          (sampler call.request s).2, t'))

theorem course (sampler : Sampler R σ) (criterion : Criterion R κ) (config : MeasurementConfig)
    (job : Job R) (session : Session R) (s : σ) (t : κ) :
    Course sampler criterion config job session s t := by
  cases hn : Plan.next criterion session.accumulators config.maxRepetitionsPerJob
      session.pending t with
  | mk planned t' =>
    cases planned with
    | error e => exact .unplanned hn (by rw [call?, hn]) (by rw [round, hn])
    | ok plan =>
      by_cases hp : plan.pending = []
      · exact .done hn hp (by simp [call?, hn, hp]) (by simp [round, hn, hp])
      · cases hl : limitReached? config session.rounds with
        | some limit =>
          exact .limited hn hp hl (by simp [call?, hn, hp, hl]) (by simp [round, hn, hp, hl])
        | none =>
          cases hs : submission? job config plan with
          | error e =>
            exact .unsubmitted hn hp hl hs (by simp [call?, hn, hp, hl, hs])
              (by simp [round, hn, hp, hl, hs])
          | ok submitted =>
            obtain ⟨variants, request⟩ := submitted
            refine .called ⟨plan, variants, request, (sampler request s).1⟩ hn hp hl hs rfl
              (by simp [call?, hn, hp, hl, hs]) ?_
            simp only [round, hn, hp, if_false, hl, hs]
            cases sampler request s with
            | mk answer s' =>
              cases answer with
              | error cause => rfl
              | ok results =>
                dsimp only
                cases deliver? variants results session.accumulators <;> rfl

theorem call?_eq_some {call : Call R}
    (h : call? sampler criterion config job session s t = some call) :
    (Plan.next criterion session.accumulators config.maxRepetitionsPerJob session.pending t).1 =
        .ok call.plan ∧
      call.plan.pending ≠ [] ∧ limitReached? config session.rounds = none ∧
      submission? job config call.plan = .ok (call.variants, call.request) ∧
      call.answer = (sampler call.request s).1 := by
  cases course sampler criterion config job session s t with
  | unplanned _ hc | done _ _ hc | limited _ _ _ hc | unsubmitted _ _ _ _ hc =>
    cases hc.symm.trans h
  | called call' hn hp hl hs ha hc =>
    cases hc.symm.trans h
    exact ⟨congrArg Prod.fst hn, hp, hl, hs, ha⟩

theorem call?_of_submission? {plan : Plan} {variants : List (Variant R)} {request : SweepRequest R}
    (hn : (Plan.next criterion session.accumulators config.maxRepetitionsPerJob session.pending
      t).1 = .ok plan) (hp : plan.pending ≠ [])
    (hl : limitReached? config session.rounds = none)
    (hs : submission? job config plan = .ok (variants, request)) :
    call? sampler criterion config job session s t =
      some ⟨plan, variants, request, (sampler request s).1⟩ := by
  unfold call?
  rw [hn]
  simp [hp, hl, hs]

theorem submits_of_call? {call : Call R}
    (h : call? sampler criterion config job session s t = some call) :
    Submits job config call.plan call.variants call.request :=
  submission?_eq_ok (call?_eq_some h).2.2.2.1

/-- A round that calls the sampler ends with what its answer comes to. -/
theorem round_of_call? {call : Call R}
    (h : call? sampler criterion config job session s t = some call) :
    round sampler criterion config job session s t =
      (match call.answer with
        | .error cause => .failed (.sampler cause)
        | .ok results => match deliver? call.variants results session.accumulators with
          | .error e => .failed e
          | .ok accumulators => .continued ⟨call.plan.pending, accumulators,
              session.notices ++ call.plan.notices, session.rounds + 1⟩,
        (sampler call.request s).2,
        (Plan.next criterion session.accumulators config.maxRepetitionsPerJob session.pending
          t).2) := by
  cases course sampler criterion config job session s t with
  | unplanned _ hc | done _ _ hc | limited _ _ _ hc | unsubmitted _ _ _ _ hc =>
    cases hc.symm.trans h
  | called call' hn _ _ _ _ hc hr =>
    cases hc.symm.trans h
    rw [hn]
    exact hr

theorem round_of_call?_eq_none
    (h : call? sampler criterion config job session s t = none) :
    (round sampler criterion config job session s t).2.1 = s ∧
      ∀ session', (round sampler criterion config job session s t).1 ≠ .continued session' := by
  cases course sampler criterion config job session s t with
  | unplanned _ _ hr | done _ _ _ hr | limited _ _ _ _ hr | unsubmitted _ _ _ _ _ hr =>
    rw [hr]
    exact ⟨rfl, nofun⟩
  | called call _ _ _ _ _ hc => cases hc.symm.trans h

theorem round_eq_continued
    (h : round sampler criterion config job session s t = (.continued session', s', t')) :
    ∃ call results accumulators,
      call? sampler criterion config job session s t = some call ∧ call.answer = .ok results ∧
      deliver? call.variants results session.accumulators = .ok accumulators ∧
      session' = ⟨call.plan.pending, accumulators, session.notices ++ call.plan.notices,
        session.rounds + 1⟩ := by
  cases hc : call? sampler criterion config job session s t with
  | none =>
    have hn := (round_of_call?_eq_none hc).2 session'
    rw [h] at hn
    exact absurd rfl hn
  | some call =>
    have hround := round_of_call? hc
    rw [h] at hround
    have houtcome := (Prod.mk.inj hround).1
    split at houtcome
    next => simp at houtcome
    next results ha =>
      split at houtcome
      next => simp at houtcome
      next accumulators hd =>
        exact ⟨call, results, accumulators, rfl, ha, hd, Outcome.continued.inj houtcome⟩

theorem round_eq_finished {run : MeasurementRun R}
    (h : round sampler criterion config job session s t = (.finished run, s', t')) :
    ∃ plan, (Plan.next criterion session.accumulators config.maxRepetitionsPerJob session.pending
        t).1 = .ok plan ∧ plan.pending = [] ∧
      run = ⟨session.accumulators, session.notices ++ plan.notices, session.rounds⟩ := by
  cases course sampler criterion config job session s t with
  | unplanned _ _ hr | limited _ _ _ _ hr | unsubmitted _ _ _ _ _ hr => cases hr.symm.trans h
  | done hn hp _ hr =>
    cases hr.symm.trans h
    exact ⟨_, congrArg Prod.fst hn, hp, rfl⟩
  | called call _ _ _ _ _ _ hr =>
    have houtcome := congrArg Prod.fst (hr.symm.trans h)
    dsimp only at houtcome
    split at houtcome
    next => cases houtcome
    next => split at houtcome <;> cases houtcome

/-- A plan with nothing pending finishes the run. -/
theorem round_of_done {plan : Plan}
    (hn : (Plan.next criterion session.accumulators config.maxRepetitionsPerJob session.pending
      t).1 = .ok plan) (hp : plan.pending = []) :
    round sampler criterion config job session s t =
      (.finished ⟨session.accumulators, session.notices ++ plan.notices, session.rounds⟩, s,
        (Plan.next criterion session.accumulators config.maxRepetitionsPerJob session.pending
          t).2) := by
  unfold round
  cases hnext : Plan.next criterion session.accumulators config.maxRepetitionsPerJob
      session.pending t with
  | mk planned t₁ =>
    rw [hnext] at hn
    obtain rfl : planned = .ok plan := hn
    simp only [hp, if_true]

theorem call?_of_finished {run : MeasurementRun R}
    (h : round sampler criterion config job session s t = (.finished run, s', t')) :
    call? sampler criterion config job session s t = none := by
  obtain ⟨plan, hn, hp, _⟩ := round_eq_finished h
  rw [call?, hn]
  exact if_pos hp

/-- Keeping a list of the requests adds the one of the round's call and changes nothing else. -/
theorem round_recording (log : List (SweepRequest R)) :
    round sampler.recording criterion config job session (log, s) t =
      ((round sampler criterion config job session s t).1,
        (((call? sampler criterion config job session s t).map Call.request).toList ++ log,
          (round sampler criterion config job session s t).2.1),
        (round sampler criterion config job session s t).2.2) := by
  cases course sampler criterion config job session s t with
  | unplanned hn hc hr =>
    rw [hr, hc, round, hn]
    rfl
  | done hn hp hc hr =>
    rw [hr, hc, round, hn]
    simp [hp]
  | limited hn hp hl hc hr =>
    rw [hr, hc, round, hn]
    simp [hp, hl]
  | unsubmitted hn hp hl hs hc hr =>
    rw [hr, hc, round, hn]
    simp [hp, hl, hs]
  | called call hn hp hl hs ha hc hr =>
    rw [hr, hc, round, hn, ha]
    simp only [hp, if_false, hl, hs, Sampler.recording]
    cases sampler call.request s with
    | mk answer s' =>
      cases answer with
      | error cause => rfl
      | ok results =>
        dsimp only
        cases deliver? call.variants results session.accumulators <;> rfl

end Session

end PauliEstimation
