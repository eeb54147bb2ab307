import Mathlib.Algebra.Group.Nat.Even
import PauliEstimation.Proofs.Measurement.Lockstep

namespace PauliEstimation

variable {R σ κ : Type}

theorem Variant.even_shots (repetitions : Nat) : Even (shots true repetitions) :=
  even_two_mul _

namespace RepetitionPolicy

variable {p : RepetitionPolicy} {share n : Nat}

/-- With two shots left to take, a job that is not refused has two. -/
theorem two_le_granted (hchunk : 2 ≤ p.chunk) (hn : n + 2 ≤ p.total) (h : ¬ p.Refused share n) :
    2 ≤ min (p.wanted n) share := by
  have hmin : minRepetitions = 10 := rfl
  unfold Refused wanted at h
  unfold wanted
  omega

/-- A single shot is granted whenever it is not refused. -/
theorem granted_eq_one (h : ¬ p.Refused share n) (hone : p.wanted n = 1) :
    min (p.wanted n) share = 1 := by
  have hmin : minRepetitions = 10 := rfl
  unfold Refused at h
  omega

end RepetitionPolicy

namespace Session

variable [Scalar R] {p : RepetitionPolicy} {ceiling : Nat} {session : Session R} {m n : Nat}
  {sampler : Sampler R σ} {job : Job R}

/-- Two shots or more that are left are taken in pairs. -/
theorem Lockstep.round_of_pair (h : session.Lockstep m n) (hl : session.LaidOut job)
    (hj : job.IsSteady sampler p ceiling m) (hchunk : 2 ≤ p.chunk) (hn : n + 2 ≤ p.total)
    (heven : Even n) (hgranted : ¬ p.Refused (ceiling / m) n) (s : σ) (t : κ) :
    ∃ session' s' n', round sampler (StoppingPolicy.repetitions p).criterion ⟨ceiling, true, none⟩
        job session s t = (.continued session', s', t) ∧
      session'.Lockstep m n' ∧ n + 2 ≤ n' ∧ n' ≤ p.total ∧ Even n' := by
  have htwo := RepetitionPolicy.two_le_granted hchunk hn hgranted
  have hshots : Variant.shots true (min (p.wanted n) (ceiling / m)) =
      2 * (min (p.wanted n) (ceiling / m) / 2) := rfl
  have hle := Variant.shots_le true (min (p.wanted n) (ceiling / m))
  have hshare : Variant.share true (min (p.wanted n) (ceiling / m)) ≠ 0 := by
    show min (p.wanted n) (ceiling / m) / 2 ≠ 0
    omega
  obtain ⟨session', s', hround, hnext, _⟩ := h.round_of_granted hl hj (by omega) hgranted hshare s t
  refine ⟨session', s', _, hround, hnext, by omega, ?_, heven.add (Variant.even_shots _)⟩
  unfold RepetitionPolicy.wanted at hle ⊢
  omega

/-- A single shot is refused, whether it is the chunk or what is left. -/
theorem Lockstep.round_of_single (h : session.Lockstep m n) (hl : session.LaidOut job)
    (hj : job.IsSteady sampler p ceiling m) (hn : n < p.total) (hone : p.wanted n = 1)
    (hgranted : ¬ p.Refused (ceiling / m) n) (s : σ) (t : κ) :
    round sampler (StoppingPolicy.repetitions p).criterion ⟨ceiling, true, none⟩ job session s t =
        (.failed (.zeroRepetitions 1), s, t) ∧
      call? sampler (StoppingPolicy.repetitions p).criterion ⟨ceiling, true, none⟩ job session s t =
        none := by
  have hgrant := RepetitionPolicy.granted_eq_one hgranted hone
  have hshare : Variant.share true (min (p.wanted n) (ceiling / m)) = 0 := by
    rw [hgrant]
    rfl
  have hround := h.round_of_no_share hl hj hn hgranted hshare s t
  rw [hgrant] at hround
  exact hround

/-- Rounds go on until every accumulator holds all pairs of shots that the total has. -/
theorem Lockstep.reaches_pairs {fuel : Nat} (h : session.Lockstep m n) (hl : session.LaidOut job)
    (hj : job.IsSteady sampler p ceiling m) (hchunk : 2 ≤ p.chunk) (hn : n ≤ p.total)
    (heven : Even n) (hgranted : ¬ p.Refused (ceiling / m) 0)
    (hfuel : (p.total - n) / 2 < fuel) (s : σ) (t : κ) :
    ∃ before last fuel' s', last.LaidOut job ∧ last.Lockstep m (2 * (p.total / 2)) ∧
      Session.run sampler (StoppingPolicy.repetitions p).criterion ⟨ceiling, true, none⟩ job fuel
          session s t =
        Session.run sampler (StoppingPolicy.repetitions p).criterion ⟨ceiling, true, none⟩ job
          (fuel' + 1) last s' t ∧
      history sampler (StoppingPolicy.repetitions p).criterion ⟨ceiling, true, none⟩ job fuel
          session s t =
        before ++ history sampler (StoppingPolicy.repetitions p).criterion ⟨ceiling, true, none⟩ job
          (fuel' + 1) last s' t := by
  -- the pairs that are left bound the fuel, and each round takes at least one of them
  induction fuel generalizing session n s with
  | zero => omega
  | succ fuel ih =>
    rcases Nat.lt_or_ge p.total (n + 2) with hlast | hmore
    · have hpairs : n = 2 * (p.total / 2) := by
        obtain ⟨k, rfl⟩ := heven
        omega
      exact ⟨[], session, fuel, s, hl, hpairs ▸ h, rfl, rfl⟩
    · obtain ⟨session', s', n', hround, hnext, hstep, hn', heven'⟩ := h.round_of_pair hl hj hchunk
        hmore heven (RepetitionPolicy.not_refused_of_zero hgranted) s t
      obtain ⟨before, last, fuel', s₁, hlaid, hpairs, hrun, hhist⟩ :=
        ih hnext (round_keeps_laidOut hl hround) hn' heven' (by omega) s'
      refine ⟨⟨session, call? sampler (StoppingPolicy.repetitions p).criterion ⟨ceiling, true, none⟩
        job session s t⟩ :: before, last, fuel', s₁, hlaid, hpairs, ?_, ?_⟩
      · rw [← hrun, Session.run, hround]
      · rw [List.cons_append, ← hhist, history, hround]

theorem Lockstep.run_of_even {fuel : Nat} (h : session.Lockstep m 0) (hl : session.LaidOut job)
    (hj : job.IsSteady sampler p ceiling m) (hchunk : 2 ≤ p.chunk) (heven : Even p.total)
    (hgranted : ¬ p.Refused (ceiling / m) 0) (hfuel : p.total / 2 < fuel) (s : σ) (t : κ) :
    ∃ run s', Session.run sampler (StoppingPolicy.repetitions p).criterion ⟨ceiling, true, none⟩ job
        fuel session s t = (some (.ok run), s', t) ∧
      run.accumulators.length = m ∧ ∀ a ∈ run.accumulators, a.repetitions = p.total := by
  obtain ⟨_, last, fuel', s', _, hlast, hrun, _⟩ :=
    h.reaches_pairs hl hj hchunk (Nat.zero_le _) Even.zero hgranted hfuel s t
  rw [Nat.two_mul_div_two_of_even heven] at hlast
  rw [hrun, Session.run, hlast.round_of_done hj.inRange]
  exact ⟨_, s', rfl, hlast.length_eq, hlast.repetitions_eq⟩

/-- The rows that calls have delivered are those that the accumulators hold. -/
theorem Lockstep.length_batches {criterion : Criterion R κ} {config : MeasurementConfig}
    {fuel k : Nat} {s : σ} {t : κ} {before after : List (Visit R)} {v : Visit R}
    (h : session.Lockstep m 0) (hv : v.session.Lockstep m n)
    (hhist : history sampler criterion config job fuel session s t = before ++ v :: after)
    (hk : k < m) :
    ((calls before).flatMap (Call.batchesOf config.symmetrize k)).flatten.length = n := by
  have hlt : k < session.accumulators.length := by rwa [h.length_eq]
  have hnodup : session.pending.Nodup := h.pending_eq ▸ List.nodup_range
  obtain ⟨_, _, hext⟩ := history_extends hnodup hhist
  obtain ⟨b, hb, hab⟩ := hext k _ (List.getElem?_eq_getElem hlt)
  have hrows : b.repetitions = session.accumulators[k].repetitions + _ :=
    (congrArg List.length hab.rows_eq).trans List.length_append
  rw [hv.repetitions_eq b (List.mem_of_getElem? hb),
    h.repetitions_eq _ (List.getElem_mem hlt), Nat.zero_add] at hrows
  exact hrows.symm

theorem Lockstep.run_of_odd {fuel : Nat} (h : session.Lockstep m 0) (hl : session.LaidOut job)
    (hj : job.IsSteady sampler p ceiling m) (hchunk : 2 ≤ p.chunk) (hodd : Odd p.total)
    (hgranted : ¬ p.Refused (ceiling / m) 0) (hfuel : p.total / 2 < fuel) (s : σ) (t : κ) :
    ∃ s', Session.run sampler (StoppingPolicy.repetitions p).criterion ⟨ceiling, true, none⟩ job
        fuel session s t = (some (.error (.zeroRepetitions 1)), s', t) ∧
      ∀ k < m, ((calls (history sampler (StoppingPolicy.repetitions p).criterion ⟨ceiling, true,
        none⟩ job fuel session s t)).flatMap (Call.batchesOf true k)).flatten.length =
        p.total - 1 := by
  obtain ⟨before, last, fuel', s', hlaid, hlast, hrun, hhist⟩ :=
    h.reaches_pairs hl hj hchunk (Nat.zero_le _) Even.zero hgranted hfuel s t
  have htotal := Nat.two_mul_div_two_add_one_of_odd hodd
  have hone : p.wanted (2 * (p.total / 2)) = 1 := by
    unfold RepetitionPolicy.wanted
    omega
  obtain ⟨hround, hcall⟩ := hlast.round_of_single hlaid hj (by omega) hone
    (RepetitionPolicy.not_refused_of_zero hgranted) s' t
  rw [Session.history, hround, hcall] at hhist
  refine ⟨s', by rw [hrun, Session.run, hround], fun k hk => ?_⟩
  have hrows := h.length_batches (v := ⟨last, none⟩) hlast hhist hk
  rw [hhist, calls_append_none, hrows]
  omega

theorem Lockstep.run_of_single_chunk {fuel : Nat} (h : session.Lockstep m 0)
    (hl : session.LaidOut job) (hj : job.IsSteady sampler p ceiling m) (htotal : 1 ≤ p.total)
    (hchunk : p.chunk = 1) (hgranted : ¬ p.Refused (ceiling / m) 0) (hfuel : 0 < fuel) (s : σ)
    (t : κ) :
    Session.run sampler (StoppingPolicy.repetitions p).criterion ⟨ceiling, true, none⟩ job fuel
        session s t = (some (.error (.zeroRepetitions 1)), s, t) ∧
      calls (history sampler (StoppingPolicy.repetitions p).criterion ⟨ceiling, true, none⟩ job fuel
        session s t) = [] := by
  obtain ⟨fuel, rfl⟩ := Nat.exists_eq_succ_of_ne_zero (Nat.ne_of_gt hfuel)
  have hone : p.wanted 0 = 1 := by
    unfold RepetitionPolicy.wanted
    omega
  obtain ⟨hround, hcall⟩ := h.round_of_single hl hj htotal hone hgranted s t
  rw [Session.run, Session.history, hround, hcall]
  exact ⟨rfl, rfl⟩

end Session

/-- A measurement with a fixed total and symmetrization fails before its first call when the job
ceiling leaves too little for a first chunk. Otherwise it succeeds exactly for an even total taken
in chunks of two shots or more, with the total in every accumulator. It fails on a single shot in
all other cases: on the last one of an odd total, with all others taken, and before its first call
when a chunk is one shot. -/
theorem symmetrized_total_is_reached_in_pairs [Scalar R] (sampler : Sampler R σ)
    (p : RepetitionPolicy) (ceiling : Nat) (c : Circuit R) (groups : List (SettingGroup R))
    (sweep : Sweep R) (fuel : Nat) (s : σ) (t : κ) (hp : p.InRange) (htotal : 1 ≤ p.total)
    (hceiling : ceiling < maxWord) (hfits : ∀ g ∈ groups, g.Fits (Job.qubitsOf groups))
    (hspecs : 0 < groups.length * sweep.points.length)
    (hd : sampler.Delivers (BasisChange.template c (Job.qubitsOf groups)
      (BasisChange.needsInitial (groups.map SettingGroup.max))) (Job.qubitsOf groups).length)
    (hfuel : p.total / 2 < fuel) :
    let criterion : Criterion R κ := (StoppingPolicy.repetitions p).criterion
    let specs := groups.length * sweep.points.length
    let share := ceiling / specs
    let outcome := measure sampler criterion ⟨ceiling, true, none⟩ c groups sweep fuel s t
    let history := measureHistory sampler criterion ⟨ceiling, true, none⟩ c groups sweep fuel s t
    (share < min p.chunk p.total ∧ share < minRepetitions →
      outcome = (some (.error (.tooManySweeps specs share ceiling)), s, t) ∧
        Session.calls history = []) ∧
    (¬ (share < min p.chunk p.total ∧ share < minRepetitions) →
      ((∃ run, outcome.1 = some (.ok run)) ↔ Even p.total ∧ 2 ≤ p.chunk) ∧
      (∀ run, outcome.1 = some (.ok run) → run.accumulators.length = specs ∧
        ∀ a ∈ run.accumulators, a.repetitions = p.total) ∧
      (¬ (Even p.total ∧ 2 ≤ p.chunk) → outcome.1 = some (.error (.zeroRepetitions 1))) ∧
      (Odd p.total → 2 ≤ p.chunk → ∀ k < specs,
        ((Session.calls history).flatMap (Call.batchesOf true k)).flatten.length = p.total - 1) ∧
      (p.chunk = 1 → Session.calls history = [])) := by
  intro criterion specs share outcome history
  obtain ⟨job, session, hstart, hj, hl, hlock, _⟩ :=
    Job.exists_steady c sweep hp hceiling hfits hspecs hd
  obtain ⟨houtcome, hhistory⟩ :
      outcome = Session.run sampler criterion ⟨ceiling, true, none⟩ job fuel session s t ∧
      history = Session.history sampler criterion ⟨ceiling, true, none⟩ job fuel session s t :=
    measure_of_start? hstart sampler criterion ⟨ceiling, true, none⟩ fuel s t
  rw [houtcome, hhistory]
  have hpositive : 0 < fuel := Nat.zero_lt_of_lt hfuel
  refine ⟨fun hrefused => ?_, fun hgranted => ?_⟩
  · exact Session.run_of_refused hlock hp hspecs hceiling hrefused hpositive sampler job s t
  · rcases Nat.lt_or_ge p.chunk 2 with hsingle | hchunk
    · have hone : p.chunk = 1 := Nat.le_antisymm (Nat.le_of_lt_succ hsingle) hp.chunk_pos
      have hnot : ¬ (Even p.total ∧ 2 ≤ p.chunk) := fun h => absurd h.2 (Nat.not_le.mpr hsingle)
      obtain ⟨hrun, hcalls⟩ :=
        hlock.run_of_single_chunk hl hj htotal hone hgranted hpositive s t
      rw [hrun, hcalls]
      exact ⟨iff_of_false (by simp) hnot, by simp, fun _ => rfl,
        fun _ hchunk => absurd hchunk (Nat.not_le.mpr hsingle), fun _ => rfl⟩
    · have hnotone : p.chunk ≠ 1 := Nat.ne_of_gt hchunk
      rcases Nat.even_or_odd p.total with heven | hodd
      · obtain ⟨run, s', hrun, hlen, hreps⟩ :=
          hlock.run_of_even hl hj hchunk heven hgranted hfuel s t
        rw [hrun]
        refine ⟨iff_of_true ⟨run, rfl⟩ ⟨heven, hchunk⟩, ?_, fun hnot => absurd ⟨heven, hchunk⟩ hnot,
          fun hodd => absurd heven (Nat.not_even_iff_odd.mpr hodd), fun hone => absurd hone hnotone⟩
        rintro _ ⟨⟩
        exact ⟨hlen, hreps⟩
      · obtain ⟨s', hrun, hrows⟩ := hlock.run_of_odd hl hj hchunk hodd hgranted hfuel s t
        have hnot : ¬ (Even p.total ∧ 2 ≤ p.chunk) :=
          fun h => Nat.not_even_iff_odd.mpr hodd h.1
        rw [hrun]
        exact ⟨iff_of_false (by simp) hnot, by simp, fun _ => rfl, fun _ _ => hrows,
          fun hone => absurd hone hnotone⟩

/-- Seven shots for each of two accumulators, three for each at a time: three pairs are taken. -/
theorem symmetrized_total_is_reached_in_pairs_odd :
    RepetitionPolicy.InRange ⟨7, 3⟩ ∧ 1 ≤ 7 ∧ 24 < maxWord ∧
      (∀ g ∈ unevenGroups, g.Fits (Job.qubitsOf unevenGroups)) ∧
      0 < unevenGroups.length * (Sweep.unit : Sweep Float).points.length ∧
      Sampler.Delivers alternatingSampler (BasisChange.template ∅ (Job.qubitsOf unevenGroups)
        (BasisChange.needsInitial (unevenGroups.map SettingGroup.max)))
        (Job.qubitsOf unevenGroups).length ∧ 7 / 2 < 4 ∧
      (measure alternatingSampler (StoppingPolicy.repetitions ⟨7, 3⟩).criterion ⟨24, true, none⟩ ∅
          unevenGroups Sweep.unit 4 0 ()).1 = some (.error (.zeroRepetitions 1)) ∧
      ∀ k < 2, ((Session.calls (measureHistory alternatingSampler
        (StoppingPolicy.repetitions ⟨7, 3⟩).criterion ⟨24, true, none⟩ ∅ unevenGroups Sweep.unit 4 0
          ())).flatMap (Call.batchesOf true k)).flatten.length = 6 := by
  have hp : RepetitionPolicy.InRange ⟨7, 3⟩ := ⟨by decide, by decide, by decide⟩
  have hceiling : 24 < maxWord := by decide
  have hd : Sampler.Delivers alternatingSampler (BasisChange.template ∅
      (Job.qubitsOf unevenGroups)
      (BasisChange.needsInitial (unevenGroups.map SettingGroup.max)))
      (Job.qubitsOf unevenGroups).length := alternatingSampler_delivers _ (by decide)
  have hspecs : 0 < unevenGroups.length * (Sweep.unit : Sweep Float).points.length := by decide
  obtain ⟨_, hgranted⟩ := symmetrized_total_is_reached_in_pairs alternatingSampler ⟨7, 3⟩ 24 ∅
    unevenGroups Sweep.unit 4 0 () hp (by decide) hceiling unevenGroups_fit hspecs hd (by decide)
  obtain ⟨_, _, hfail, hrows, _⟩ := hgranted (by decide)
  exact ⟨hp, by decide, hceiling, unevenGroups_fit, hspecs, hd, by decide, hfail (by decide),
    hrows (by decide) (by decide)⟩

end PauliEstimation
