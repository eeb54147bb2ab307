import PauliEstimation.Proofs.Measurement.Lockstep

namespace PauliEstimation

variable {R σ κ : Type}

namespace Session

variable [Scalar R] {p : RepetitionPolicy} {ceiling : Nat} {session session' : Session R}
  {m n : Nat} {sampler : Sampler R σ} {job : Job R} {s s' : σ} {t t' : κ}

theorem Lockstep.round_of_plain (h : session.Lockstep m n) (hl : session.LaidOut job)
    (hj : job.IsSteady sampler p ceiling m) (hn : n < p.total)
    (hgranted : ¬ p.Refused (ceiling / m) n) (s : σ) (t : κ) :
    ∃ session' s', round sampler (StoppingPolicy.repetitions p).criterion ⟨ceiling, false, none⟩
        job session s t = (.continued session', s', t) ∧
      session'.Lockstep m (n + min (p.wanted n) (ceiling / m)) ∧
      session'.rounds = session.rounds + 1 := by
  have hshare : Variant.share false (min (p.wanted n) (ceiling / m)) ≠ 0 :=
    Nat.ne_of_gt (RepetitionPolicy.granted_pos hj.inRange hn hgranted)
  have hshots : Variant.shots false (min (p.wanted n) (ceiling / m)) =
      min (p.wanted n) (ceiling / m) := Nat.one_mul _
  rw [← hshots]
  exact h.round_of_granted hl hj hn hgranted hshare s t

/-- Once the first job is granted, rounds go on until every accumulator holds the total. -/
theorem Lockstep.run_eq_ok {fuel : Nat} (h : session.Lockstep m n) (hl : session.LaidOut job)
    (hj : job.IsSteady sampler p ceiling m) (hn : n ≤ p.total)
    (hgranted : ¬ p.Refused (ceiling / m) 0)
    (hfuel : (p.total - n) ⌈/⌉ min p.chunk (ceiling / m) < fuel) (s : σ) (t : κ) :
    ∃ run s', Session.run sampler (StoppingPolicy.repetitions p).criterion ⟨ceiling, false, none⟩
        job fuel session s t = (some (.ok run), s', t) ∧
      run.accumulators.length = m ∧ (∀ a ∈ run.accumulators, a.repetitions = p.total) ∧
      run.rounds = session.rounds + (p.total - n) ⌈/⌉ min p.chunk (ceiling / m) ∧
      ∀ requested chosen, .divergentRepetitions requested chosen ∉ run.notices := by
  -- the rounds that are left bound the fuel, and each round lowers them by one
  induction fuel generalizing session n s t with
  | zero => omega
  | succ fuel ih =>
    rw [Session.run]
    rcases Nat.eq_or_lt_of_le hn with rfl | hlt
    · rw [h.round_of_done hj.inRange]
      exact ⟨_, s, rfl, h.length_eq, h.repetitions_eq, by simp, h.unanimous⟩
    · obtain ⟨session', s₁, hround, hnext, hrounds⟩ :=
        h.round_of_plain hl hj hlt (RepetitionPolicy.not_refused_of_zero hgranted) s t
      have hstep := RepetitionPolicy.step_pos hj.inRange (Nat.zero_lt_of_lt hlt) hgranted
      have hleft := RepetitionPolicy.rounds_left hlt hstep
      have hn' : n + min (p.wanted n) (ceiling / m) ≤ p.total := by
        unfold RepetitionPolicy.wanted
        omega
      rw [hround]
      obtain ⟨run, s', hrun, hlen, htotal, hcount, hnotices⟩ :=
        ih hnext (round_keeps_laidOut hl hround) hn' (by omega) s₁ t
      exact ⟨run, s', hrun, hlen, htotal, by omega, hnotices⟩

end Session

/-- A measurement with a fixed total fails before its first call when the job ceiling leaves too
little for a first chunk. Otherwise it ends after as many rounds as chunks, or shares of the ceiling,
cover the total, with exactly the total in every accumulator. The accumulators never ask for
different numbers. -/
theorem fixed_total_is_reached [Scalar R] (sampler : Sampler R σ) (p : RepetitionPolicy)
    (ceiling : Nat) (c : Circuit R) (groups : List (SettingGroup R)) (sweep : Sweep R) (fuel : Nat)
    (s : σ) (t : κ) (hp : p.InRange) (hceiling : ceiling < maxWord)
    (hfits : ∀ g ∈ groups, g.Fits (Job.qubitsOf groups))
    (hspecs : 0 < groups.length * sweep.points.length)
    (hd : sampler.Delivers (BasisChange.template c (Job.qubitsOf groups)
      (BasisChange.needsInitial (groups.map SettingGroup.max))) (Job.qubitsOf groups).length)
    (hfuel : p.total ⌈/⌉ min p.chunk (ceiling / (groups.length * sweep.points.length)) < fuel) :
    let criterion : Criterion R κ := (StoppingPolicy.repetitions p).criterion
    let specs := groups.length * sweep.points.length
    let share := ceiling / specs
    let outcome := measure sampler criterion ⟨ceiling, false, none⟩ c groups sweep fuel s t
    let history := measureHistory sampler criterion ⟨ceiling, false, none⟩ c groups sweep fuel s t
    (share < min p.chunk p.total ∧ share < minRepetitions →
      outcome = (some (.error (.tooManySweeps specs share ceiling)), s, t) ∧
        Session.calls history = []) ∧
    (¬ (share < min p.chunk p.total ∧ share < minRepetitions) →
      ∃ run s', outcome = (some (.ok run), s', t) ∧ run.accumulators.length = specs ∧
        (∀ a ∈ run.accumulators, a.repetitions = p.total) ∧
        run.rounds = p.total ⌈/⌉ min p.chunk share ∧
        (Session.calls history).length = run.rounds ∧
        ∀ requested chosen, .divergentRepetitions requested chosen ∉ run.notices) ∧
    ∀ v ∈ history, ∀ requests t₁ t₂,
      Plan.ask criterion v.session.accumulators v.session.pending t₁ = (.ok requests, t₂) →
        (aggregateRequests (requests.map Prod.snd)).2 = none := by
  intro criterion specs share outcome history
  obtain ⟨job, session, hstart, hj, hl, hlock, hrounds⟩ :=
    Job.exists_steady c sweep hp hceiling hfits hspecs hd
  obtain ⟨houtcome, hhistory⟩ :
      outcome = Session.run sampler criterion ⟨ceiling, false, none⟩ job fuel session s t ∧
      history = Session.history sampler criterion ⟨ceiling, false, none⟩ job fuel session s t :=
    measure_of_start? hstart sampler criterion ⟨ceiling, false, none⟩ fuel s t
  rw [houtcome, hhistory]
  refine ⟨fun hrefused => ?_, fun hgranted => ?_, fun v hv requests t₁ t₂ hask => ?_⟩
  · exact Session.run_of_refused hlock hp hspecs hceiling hrefused (Nat.zero_lt_of_lt hfuel)
      sampler job s t
  · obtain ⟨run, s', hrun, hlen, htotal, hcount, hnotices⟩ :=
      hlock.run_eq_ok hl hj (Nat.zero_le _) hgranted hfuel s t
    have hnodup : session.pending.Nodup := hlock.pending_eq ▸ List.nodup_range
    have hcalls := (Session.run_extends hnodup hrun).2.1
    rw [hrounds, Nat.zero_add] at hcount hcalls
    exact ⟨run, s', hrun, hlen, htotal, hcount, hcalls.symm, hnotices⟩
  · obtain ⟨n, hn, hlockv⟩ := Session.history_lockstep hlock hl hj hv
    exact hlockv.requests_agree hp hn hask

/-- Two accumulators under a ceiling that leaves 12 of 20 shots to a chunk. -/
theorem fixed_total_is_reached_throttled :
    RepetitionPolicy.InRange ⟨25, 20⟩ ∧ 24 < maxWord ∧
      (∀ g ∈ unevenGroups, g.Fits (Job.qubitsOf unevenGroups)) ∧
      Sampler.Delivers alternatingSampler (BasisChange.template ∅ (Job.qubitsOf unevenGroups)
        (BasisChange.needsInitial (unevenGroups.map SettingGroup.max)))
        (Job.qubitsOf unevenGroups).length ∧
      ∃ run s, measure alternatingSampler (StoppingPolicy.repetitions ⟨25, 20⟩).criterion
          ⟨24, false, none⟩ ∅ unevenGroups Sweep.unit 4 0 () = (some (.ok run), s, ()) ∧
        run.accumulators.length = 2 ∧ (∀ a ∈ run.accumulators, a.repetitions = 25) ∧
        run.rounds = 3 := by
  have hp : RepetitionPolicy.InRange ⟨25, 20⟩ := ⟨by decide, by decide, by decide⟩
  have hceiling : 24 < maxWord := by decide
  have hd : Sampler.Delivers alternatingSampler (BasisChange.template ∅
      (Job.qubitsOf unevenGroups)
      (BasisChange.needsInitial (unevenGroups.map SettingGroup.max)))
      (Job.qubitsOf unevenGroups).length := alternatingSampler_delivers _ (by decide)
  have hrounds : 25 ⌈/⌉ min 20 12 = 3 := by rw [Nat.ceilDiv_eq_add_pred_div]; rfl
  obtain ⟨_, hreached, _⟩ := fixed_total_is_reached alternatingSampler ⟨25, 20⟩ 24 ∅ unevenGroups
    Sweep.unit 4 0 () hp hceiling unevenGroups_fit (by decide) hd
    (Nat.lt_of_le_of_lt hrounds.le (by decide))
  obtain ⟨run, s, hrun, hlen, htotal, hcount, _⟩ := hreached (by decide)
  exact ⟨hp, hceiling, unevenGroups_fit, hd, run, s, hrun, hlen, htotal, hcount.trans hrounds⟩

end PauliEstimation
