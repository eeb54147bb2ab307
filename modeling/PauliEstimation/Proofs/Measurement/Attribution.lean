import PauliEstimation.Proofs.Measurement.Layout
import PauliEstimation.Proofs.Setting.Partition

namespace PauliEstimation

variable {R σ κ : Type}

namespace MeasurementError

/-- What is reported of groups that cannot be measured. -/
inductive IsRejection : MeasurementError R → Prop where
  | unscaled (coefficient : R) : IsRejection (.unscaledPadding coefficient)
  | incompatible (s max : Setting R) : IsRejection (.incompatibleSetting s max)

/-- What is reported when the next job is not submitted. -/
inductive IsRefusal : MeasurementError R → Prop where
  | negative {answer : Int} (h : answer < 0) : IsRefusal (.negativeRepetitions answer)
  | sweeps (groups repetitions ceiling : Nat) :
      IsRefusal (.tooManySweeps groups repetitions ceiling)
  | zero (requested : Nat) : IsRefusal (.zeroRepetitions requested)
  | rounds (limit : Nat) : IsRefusal (.roundLimitExceeded limit)

theorem IsRefusal.not_isRejection {e : MeasurementError R} (h : e.IsRefusal) : ¬ e.IsRejection := by
  cases h <;> nofun

end MeasurementError

theorem SettingGroup.Rejected.isRejection [Scalar R] {qubits : List Qubit} {g : SettingGroup R}
    {e : MeasurementError R} (h : g.Rejected qubits e) : e.IsRejection := by
  cases h with
  | scaled => exact .unscaled _
  | incompatible => exact .incompatible _ _

/-- A measurement that does not start rejects its groups. -/
theorem Job.start?_isRejection [Scalar R] {c : Circuit R} {groups : List (SettingGroup R)}
    {sweep : Sweep R} {e : MeasurementError R} (h : start? c groups sweep = .error e) :
    e.IsRejection := by
  by_cases hfits : ∀ g ∈ groups, g.Fits (qubitsOf groups)
  · obtain ⟨job, session, hstart⟩ := start?_of_fits c sweep hfits
    cases h.symm.trans hstart
  · push Not at hfits
    obtain ⟨before, g, after, hg, hb, hmisfit⟩ := exists_first_failure hfits
    obtain ⟨cause, hcause, hr⟩ := start?_of_first_misfit c sweep hg hb hmisfit
    obtain rfl : e = cause := Except.error.inj (h.symm.trans hcause)
    exact hr.isRejection

/-- What is wrong with the sampler's answer: it is a failure, it has not one result for each point,
or a result has no joint bits or not one column for each qubit. -/
inductive Call.Faults (call : Call R) (width : Nat) : MeasurementError R → Prop where
  | sampler {cause : String} (h : call.answer = .error cause) : Faults call width (.sampler cause)
  | count {results : List (PointResult R)} (h : call.answer = .ok results)
      (hc : results.length ≠ call.request.sweep.points.length) :
      Faults call width
        (.resultCountMismatch call.request.sweep.points.length results.length)
  | missing {results : List (PointResult R)} {result : PointResult R}
      (h : call.answer = .ok results) (hr : result ∈ results)
      (hk : result.measurements.get? BasisChange.key = none) :
      Faults call width (.fault (.missingKey BasisChange.key))
  | ragged {results : List (PointResult R)} {result : PointResult R} {bits : BitMatrix}
      (h : call.answer = .ok results) (hr : result ∈ results)
      (hk : result.measurements.get? BasisChange.key = some bits) (hw : bits.width ≠ width) :
      Faults call width (.fault (.raggedRow bits.width width))

/-- One result for each point, each with joint bits on all qubits, is nothing to blame. -/
theorem Call.not_faults {call : Call R} {results : List (PointResult R)} {width : Nat}
    {e : MeasurementError R} (ha : call.answer = .ok results)
    (hlen : results.length = call.request.sweep.points.length)
    (hbits : ∀ result ∈ results, ∃ bits, result.measurements.get? BasisChange.key = some bits ∧
      bits.width = width) : ¬ call.Faults width e := by
  intro h
  cases h with
  | sampler h => cases ha.symm.trans h
  | count h hcount =>
    cases ha.symm.trans h
    exact hcount hlen
  | missing h hm hk =>
    cases ha.symm.trans h
    obtain ⟨bits, hb, _⟩ := hbits _ hm
    cases hk.symm.trans hb
  | ragged h hm hk hw =>
    cases ha.symm.trans h
    obtain ⟨bits, hb, hwidth⟩ := hbits _ hm
    cases hk.symm.trans hb
    exact hw hwidth

theorem Call.Faults.not_isRejection {call : Call R} {width : Nat} {e : MeasurementError R}
    (h : call.Faults width e) : ¬ e.IsRejection := by
  cases h <;> nofun

/-- Whatever is asked of it, the criterion has an answer. -/
def Criterion.Answers (criterion : Criterion R κ) (accumulators : List (Accumulator R)) : Prop :=
  ∀ a ∈ accumulators, ∀ t, ∃ answer, (criterion a t).1 = .ok answer

namespace Plan

variable {criterion : Criterion R κ} {accumulators : List (Accumulator R)} {todo : List Nat}
  {t : κ} {e : MeasurementError R}

theorem next_isRefusal {ceiling : Nat} (hlt : ∀ k ∈ todo, k < accumulators.length)
    (hc : criterion.Answers accumulators)
    (h : (next criterion accumulators ceiling todo t).1 = .error e) : e.IsRefusal := by
  rcases next_eq_error h with hask | ⟨groups, repetitions, rfl⟩
  · obtain ⟨answer, hneg, rfl, _⟩ | ⟨fault, rfl, k, hk, hnone | ⟨a, t₁, ha, hf⟩⟩ :=
      ask_eq_error hask
    · exact .negative hneg
    · exact absurd (List.getElem?_eq_none_iff.mp hnone) (Nat.not_le.mpr (hlt k hk))
    · obtain ⟨answer, hanswer⟩ := hc a (List.mem_of_getElem? ha) t₁
      cases hf.symm.trans hanswer
  · exact .sweeps _ _ _

end Plan

namespace Session

theorem deliver?_eq_error {variants : List (Variant R)} {results : List (PointResult R)}
    {accumulators : List (Accumulator R)} {e : MeasurementError R}
    (h : deliver? variants results accumulators = .error e) :
    results.length ≠ variants.length ∧ e = .resultCountMismatch variants.length results.length ∨
      ∃ fault, (variants.zip results).foldlM (fun as d => deliverOne? as d.1 d.2) accumulators =
        .error fault ∧ e = .fault fault := by
  unfold deliver? at h
  split at h
  next =>
    cases hf : (variants.zip results).foldlM (fun as d => deliverOne? as d.1 d.2) accumulators with
    | error fault =>
      rw [hf] at h
      exact Or.inr ⟨fault, rfl, (Except.error.inj h).symm⟩
    | ok next =>
      rw [hf] at h
      cases h
  next hl => exact Or.inl ⟨hl, (Except.error.inj h).symm⟩

variable [Scalar R] {sampler : Sampler R σ} {criterion : Criterion R κ} {config : MeasurementConfig}
  {job : Job R} {session session' : Session R} {s s' : σ} {t t' : κ} {e : MeasurementError R}

/-- A result that cannot be taken in is the sampler's fault: the variants are well laid out. -/
theorem faults_of_deliver? {call : Call R} {results : List (PointResult R)}
    (hl : session.LaidOut job)
    (hc : call? sampler criterion config job session s t = some call)
    (ha : call.answer = .ok results)
    (h : deliver? call.variants results session.accumulators = .error e) :
    call.Faults job.qubits.length e := by
  have hs := submits_of_call? hc
  have hpoints := hs.points.length_eq
  rcases deliver?_eq_error h with ⟨hcount, rfl⟩ | ⟨fault, hfold, rfl⟩
  · rw [hpoints] at hcount ⊢
    exact .count ha hcount
  · have hvariants : ∀ d ∈ call.variants.zip results,
        d.1.index < session.accumulators.length ∧ d.1.flips.length = job.qubits.length := by
      intro d hd
      have hv := (List.of_mem_zip hd).1
      have hmem := (Plan.next_sublist (call?_eq_some hc).1).subset
        (Variant.index_mem_of_ofPending? hs.variants_eq hv)
      exact ⟨hl.pending_lt _ hmem, Variant.length_flips_of_ofPending? hs.variants_eq hv⟩
    obtain ⟨d, hd, ⟨hk, rfl⟩ | ⟨bits, hk, hw, rfl⟩⟩ :=
      deliverAll_eq_error hvariants hl.width_eq hfold
    · exact .missing ha (List.of_mem_zip hd).2 hk
    · exact .ragged ha (List.of_mem_zip hd).2 hk hw

/-- Why a round ends before its call: the plan fails, the rounds are used up, or there is no
repetition for each variant. -/
inductive Refuses (criterion : Criterion R κ) (config : MeasurementConfig) (session : Session R)
    (t : κ) : MeasurementError R → Prop where
  | plan {e : MeasurementError R}
      (hn : (Plan.next criterion session.accumulators config.maxRepetitionsPerJob session.pending
        t).1 = .error e) : Refuses criterion config session t e
  | limit {plan : Plan} {limit : Nat}
      (hn : (Plan.next criterion session.accumulators config.maxRepetitionsPerJob session.pending
        t).1 = .ok plan) (hp : plan.pending ≠ [])
      (hl : limitReached? config session.rounds = some limit) :
      Refuses criterion config session t (.roundLimitExceeded limit)
  | share {plan : Plan}
      (hn : (Plan.next criterion session.accumulators config.maxRepetitionsPerJob session.pending
        t).1 = .ok plan) (hp : plan.pending ≠ [])
      (hl : limitReached? config session.rounds = none)
      (hs : Variant.share config.symmetrize plan.repetitions = 0) :
      Refuses criterion config session t (.zeroRepetitions plan.repetitions)

/-- A round that fails ends before its call or blames the sampler's answer. -/
theorem round_failed_cases (hl : session.LaidOut job) (hcover : job.Covers)
    (h : round sampler criterion config job session s t = (.failed e, s', t')) :
    (call? sampler criterion config job session s t = none ∧
        session.Refuses criterion config t e) ∨
      ∃ call, call? sampler criterion config job session s t = some call ∧
        call.Faults job.qubits.length e := by
  cases course sampler criterion config job session s t with
  | done _ _ _ hr => cases hr.symm.trans h
  | unplanned hn hc hr =>
    cases hr.symm.trans h
    exact .inl ⟨hc, .plan (congrArg Prod.fst hn)⟩
  | limited hn hp hlimit hc hr =>
    cases hr.symm.trans h
    exact .inl ⟨hc, .limit (congrArg Prod.fst hn) hp hlimit⟩
  | @unsubmitted plan cause t₁ hn hp hlimit hsub hc hr =>
    cases hr.symm.trans h
    -- the variants of a job that covers its settings can be bound, so only shots can be wanting
    have hlt : ∀ k ∈ plan.pending, k < job.specs.length := fun k hk => hl.length_eq ▸
      hl.pending_lt k ((Plan.next_sublist (congrArg Prod.fst hn)).subset hk)
    have hcovered := submission?_of_covers config plan hcover hlt
    split at hcovered
    next hs =>
      cases hsub.symm.trans hcovered
      exact .inl ⟨hc, .share (congrArg Prod.fst hn) hp hlimit hs⟩
    next =>
      obtain ⟨variants, request, hok⟩ := hcovered
      cases hsub.symm.trans hok
  | called call _ _ _ _ _ hc hr =>
    have houtcome := congrArg Prod.fst (hr.symm.trans h)
    dsimp only at houtcome
    split at houtcome
    next cause ha =>
      cases houtcome
      exact .inr ⟨call, hc, .sampler ha⟩
    next results ha =>
      split at houtcome
      next cause hd =>
        cases houtcome
        exact .inr ⟨call, hc, faults_of_deliver? hl hc ha hd⟩
      next => cases houtcome

omit [Scalar R] in
theorem Refuses.isRefusal (hl : session.LaidOut job)
    (hcriterion : criterion.Answers session.accumulators)
    (h : session.Refuses criterion config t e) : e.IsRefusal := by
  cases h with
  | plan hn => exact Plan.next_isRefusal hl.pending_lt hcriterion hn
  | limit => exact .rounds _
  | share => exact .zero _

/-- A round that fails refuses its job or blames the sampler's answer. -/
theorem round_eq_failed (hl : session.LaidOut job) (hcover : job.Covers)
    (hcriterion : criterion.Answers session.accumulators)
    (h : round sampler criterion config job session s t = (.failed e, s', t')) :
    e.IsRefusal ∨ ∃ call, call? sampler criterion config job session s t = some call ∧
      call.Faults job.qubits.length e := by
  rcases round_failed_cases hl hcover h with ⟨_, hrefuses⟩ | hfaults
  · exact Or.inl (hrefuses.isRefusal hl hcriterion)
  · exact Or.inr hfaults

end Session

variable [Scalar R]

/-- A measurement that starts and then fails refuses a job or blames its last call. -/
theorem fails_of_refusal_or_fault {sampler : Sampler R σ} {criterion : Criterion R κ}
    {config : MeasurementConfig} {c : Circuit R} {groups : List (SettingGroup R)}
    {sweep : Sweep R} {fuel : Nat} {s : σ} {t : κ} {e : MeasurementError R}
    (hfits : ∀ g ∈ groups, g.Fits (Job.qubitsOf groups))
    (hcriterion : ∀ v ∈ measureHistory sampler criterion config c groups sweep fuel s t,
      criterion.Answers v.session.accumulators)
    (h : (measure sampler criterion config c groups sweep fuel s t).1 = some (.error e)) :
    e.IsRefusal ∨ ∃ call, (Session.calls (measureHistory sampler criterion config c groups sweep
        fuel s t)).getLast? = some call ∧ call.Faults (Job.qubitsOf groups).length e := by
  obtain ⟨job, session, hstart⟩ := Job.start?_of_fits c sweep hfits
  unfold measureHistory at hcriterion ⊢
  unfold measure at h
  rw [hstart] at hcriterion h ⊢
  have hqubits : job.qubits = Job.qubitsOf groups := by
    obtain ⟨_, _, rfl, _⟩ := Job.start?_eq_ok hstart
    rfl
  obtain ⟨before, last, s₁, t₁, hlast, hround, hhist⟩ := Session.run_eq_error
    (P := fun session => session.LaidOut job) (Job.start?_laidOut hstart)
    (fun hl hr => Session.round_keeps_laidOut hl hr) (Prod.ext h rfl)
  dsimp only at hcriterion ⊢
  rw [hhist] at hcriterion ⊢
  rcases Session.round_eq_failed hlast (Job.start?_covers hstart)
      (hcriterion _ (List.mem_append_right _ (List.mem_singleton_self _))) hround with
    hrefusal | ⟨call, hcall, hfaults⟩
  · exact Or.inl hrefusal
  · right
    exact ⟨call, by simp [Session.calls, hcall], hqubits ▸ hfaults⟩

/-- A group that is the union of its members fits whatever qubits are measured. -/
theorem SettingGroup.IsUnion.fits {g : SettingGroup R} (h : g.IsUnion) (qubits : List Qubit)
    (hone : ((1 : R) == 1) = true) : g.Fits qubits where
  unscaled := by rw [h.coefficient_eq, hone]
  compatible _ hs := BasisChange.isCompatibleWith_padded (h.isCompatibleWith hs) qubits

theorem measure_of_first_misfit (sampler : Sampler R σ) (criterion : Criterion R κ)
    (config : MeasurementConfig) (c : Circuit R) {groups before after : List (SettingGroup R)}
    {g : SettingGroup R} (sweep : Sweep R) (fuel : Nat) (s : σ) (t : κ)
    (hg : groups = before ++ g :: after)
    (hb : ∀ g' ∈ before, g'.Fits (Job.qubitsOf groups)) (h : ¬ g.Fits (Job.qubitsOf groups)) :
    ∃ e, g.Rejected (Job.qubitsOf groups) e ∧
      measure sampler criterion config c groups sweep fuel s t = (some (.error e), s, t) ∧
      measureHistory sampler criterion config c groups sweep fuel s t = [] := by
  obtain ⟨e, he, hr⟩ := Job.start?_of_first_misfit c sweep hg hb h
  unfold measure measureHistory
  rw [he]
  exact ⟨e, hr, rfl, rfl⟩

/-- Groups are rejected exactly when one of them does not fit, the first such group is the one that
is reported, and nothing is sampled for it. Every other error is the refusal of a job or a fault of
the last answer of the sampler. Greedy groups are never rejected, and no padding puts a second
factor on a qubit. -/
theorem errors_have_their_causes (sampler : Sampler R σ) (criterion : Criterion R κ)
    (config : MeasurementConfig) (c : Circuit R) (groups : List (SettingGroup R))
    (sweep : Sweep R) (fuel : Nat) (s : σ) (t : κ)
    (hcriterion : ∀ v ∈ measureHistory sampler criterion config c groups sweep fuel s t,
      criterion.Answers v.session.accumulators) :
    let qubits := Job.qubitsOf groups
    let outcome := measure sampler criterion config c groups sweep fuel s t
    let calls := Session.calls (measureHistory sampler criterion config c groups sweep fuel s t)
    ((∃ e, outcome.1 = some (.error e) ∧ e.IsRejection) ↔ ∃ g ∈ groups, ¬ g.Fits qubits) ∧
      (∀ before g after, groups = before ++ g :: after → (∀ g' ∈ before, g'.Fits qubits) →
        ¬ g.Fits qubits →
        ∃ e, g.Rejected qubits e ∧ outcome = (some (.error e), s, t) ∧ calls = []) ∧
      ((∀ g ∈ groups, g.Fits qubits) → ∀ e, outcome.1 = some (.error e) →
        e.IsRefusal ∨ ∃ call, calls.getLast? = some call ∧ call.Faults qubits.length e) ∧
      (∀ settings, ((1 : R) == 1) = true → groups = SettingGroup.greedy settings →
        ∀ g ∈ groups, g.Fits qubits) ∧
      ∀ g ∈ groups,
        qubits.foldlM (fun p q => if p.contains q then .ok p else p.with? q .z) g.max.observable =
            .ok (BasisChange.padded g.max qubits).observable ∧
          qubits.foldlM (fun p q => if p.contains q then .ok p
              else ProductState.with? p q Eigenstate.zero) g.max.initial =
            .ok (BasisChange.padded g.max qubits).initial := by
  intro qubits outcome calls
  have hmisfit : ∀ before g after, groups = before ++ g :: after →
      (∀ g' ∈ before, g'.Fits qubits) → ¬ g.Fits qubits →
      ∃ e, g.Rejected qubits e ∧ outcome = (some (.error e), s, t) ∧ calls = [] := by
    intro before g after hg hb h
    obtain ⟨e, hr, ho, hh⟩ :=
      measure_of_first_misfit sampler criterion config c sweep fuel s t hg hb h
    exact ⟨e, hr, ho, congrArg Session.calls hh⟩
  have hblame : (∀ g ∈ groups, g.Fits qubits) → ∀ e, outcome.1 = some (.error e) →
      e.IsRefusal ∨ ∃ call, calls.getLast? = some call ∧ call.Faults qubits.length e :=
    fun hfits e he => fails_of_refusal_or_fault hfits hcriterion he
  refine ⟨⟨?_, ?_⟩, hmisfit, hblame, ?_, fun g _ => ?_⟩
  · rintro ⟨e, he, hrejection⟩
    by_contra hnone
    have hfits : ∀ g ∈ groups, g.Fits qubits := by
      intro g hg
      by_contra h
      exact hnone ⟨g, hg, h⟩
    rcases hblame hfits e he with hrefusal | ⟨call, _, hfaults⟩
    · exact hrefusal.not_isRejection hrejection
    · exact hfaults.not_isRejection hrejection
  · intro h
    obtain ⟨before, g, after, hg, hb, hg'⟩ := exists_first_failure h
    obtain ⟨e, hr, ho, _⟩ := hmisfit before g after hg hb hg'
    exact ⟨e, by rw [ho], hr.isRejection⟩
  · rintro settings hone rfl g hg
    exact ((SettingGroup.isFaithful_greedy settings).union g hg).fits qubits hone
  · exact ⟨BasisChange.foldlM_with?_eq_padMap g.max.observable qubits .z,
      BasisChange.foldlM_productWith?_eq_padMap g.max.initial qubits Eigenstate.zero⟩

/-- The second of two groups lists a setting on `X` that its max setting on `Z` does not cover. -/
theorem errors_have_their_causes_misfit :
    let readingX : Setting Float := Setting.ofObservable (PauliString.single ⟨0⟩ .x)
    let g₀ : SettingGroup Float := ⟨readingZ ⟨1⟩, [readingZ ⟨1⟩]⟩
    let g₁ : SettingGroup Float := ⟨readingZ ⟨0⟩, [readingZ ⟨0⟩, readingX]⟩
    (∀ v ∈ measureHistory alternatingSampler (StoppingPolicy.repetitions ⟨6, 4⟩).criterion {} ∅
        [g₀, g₁] Sweep.unit 4 0 (),
      ((StoppingPolicy.repetitions ⟨6, 4⟩).criterion (κ := Unit)).Answers v.session.accumulators) ∧
    g₀.Fits [⟨0⟩, ⟨1⟩] ∧ ¬ g₁.Fits [⟨0⟩, ⟨1⟩] ∧
    ∃ e, g₁.Rejected [⟨0⟩, ⟨1⟩] e ∧ measure alternatingSampler
        (StoppingPolicy.repetitions ⟨6, 4⟩).criterion {} ∅ [g₀, g₁] Sweep.unit 4 0 () =
      (some (.error e), 0, ()) := by
  intro readingX g₀ g₁
  have hcriterion : ∀ v ∈ measureHistory alternatingSampler
      (StoppingPolicy.repetitions ⟨6, 4⟩).criterion {} ∅ [g₀, g₁] Sweep.unit 4 0 (),
      ((StoppingPolicy.repetitions ⟨6, 4⟩).criterion (κ := Unit)).Answers
        v.session.accumulators := fun _ _ _ _ _ => ⟨_, rfl⟩
  have hfits : g₀.Fits [⟨0⟩, ⟨1⟩] := ⟨by decide, by decide⟩
  have hmisfit : ¬ g₁.Fits [⟨0⟩, ⟨1⟩] := by
    intro h
    have hx : ¬ readingX.IsCompatibleWith (BasisChange.padded g₁.max [⟨0⟩, ⟨1⟩]) := by decide
    exact hx (h.compatible readingX (by simp [g₁]))
  obtain ⟨_, hfirst, _⟩ := errors_have_their_causes alternatingSampler
    (StoppingPolicy.repetitions ⟨6, 4⟩).criterion {} ∅ [g₀, g₁] Sweep.unit 4 0 () hcriterion
  have hqubits : Job.qubitsOf [g₀, g₁] = [⟨0⟩, ⟨1⟩] := by decide
  rw [hqubits] at hfirst
  obtain ⟨e, hr, ho, _⟩ := hfirst [g₀] g₁ [] rfl (by simpa using hfits) hmisfit
  exact ⟨hcriterion, hfits, hmisfit, e, hr, ho⟩

end PauliEstimation
