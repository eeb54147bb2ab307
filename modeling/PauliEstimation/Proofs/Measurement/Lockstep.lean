import PauliEstimation.Proofs.Measurement.Attribution
import PauliEstimation.Proofs.Measurement.Routing
import PauliEstimation.Proofs.Measurement.UniformPlan

namespace PauliEstimation

variable {R σ κ : Type}

/-- One result for each point, each with one row of joint bits for each requested repetition. -/
def Sampler.Delivers (sampler : Sampler R σ) (program : Circuit R) (width : Nat) : Prop :=
  ∀ request s, request.program = program → ∃ results, (sampler request s).1 = .ok results ∧
    results.length = request.sweep.points.length ∧ ∀ result ∈ results, ∃ bits,
      result.measurements.get? BasisChange.key = some bits ∧ bits.width = width ∧
        bits.rowCount = request.repetitions

/-- A job of `m` specifications that a sampler serves in full, with counts in range. -/
structure Job.IsSteady [Scalar R] (sampler : Sampler R σ) (p : RepetitionPolicy) (ceiling m : Nat)
    (job : Job R) : Prop where
  covers : job.Covers
  delivers : sampler.Delivers job.program job.qubits.length
  inRange : p.InRange
  ceiling_lt : ceiling < maxWord
  specs_pos : 0 < m

/-- All `m` accumulators are pending and hold `n` shots, and no two of them ever asked for different
numbers. -/
structure Session.Lockstep (m n : Nat) (session : Session R) : Prop where
  length_eq : session.accumulators.length = m
  pending_eq : session.pending = List.range m
  repetitions_eq : ∀ a ∈ session.accumulators, a.repetitions = n
  unanimous : ∀ requested chosen, .divergentRepetitions requested chosen ∉ session.notices

/-- The shots that a specification gets from a round planned for so many. -/
def Variant.shots (symmetrize : Bool) (repetitions : Nat) : Nat :=
  (if symmetrize then 2 else 1) * share symmetrize repetitions

theorem Variant.shots_le (symmetrize : Bool) (repetitions : Nat) :
    shots symmetrize repetitions ≤ repetitions := by
  cases symmetrize with
  | false => exact Nat.le_of_eq (Nat.one_mul _)
  | true => exact Nat.mul_div_le repetitions 2

namespace Session

variable {p : RepetitionPolicy} {ceiling : Nat} {symmetrize : Bool}
  {session session' : Session R} {m n : Nat}

/-- A call on all accumulators adds one row to each for every repetition, and with symmetrization
another one from the flipped points. -/
theorem length_batchesOf {call : Call R} {results : List (PointResult R)} {k : Nat}
    (hp : call.plan.pending = List.range m) (hk : k < m) (ha : call.answer = .ok results)
    (hlen : results.length = m * if symmetrize then 2 else 1)
    (hbits : ∀ result ∈ results, ∃ bits, result.measurements.get? BasisChange.key = some bits ∧
      bits.rowCount = call.request.repetitions) :
    (call.batchesOf symmetrize k).flatten.length =
      (if symmetrize then 2 else 1) * call.request.repetitions := by
  have hmem : k ∈ call.plan.pending := hp ▸ List.mem_range.mpr hk
  have hcount : results.length = call.plan.pending.length * if symmetrize then 2 else 1 := by
    rw [hlen, hp, List.length_range]
  rw [List.length_flatten, call.map_length_batchesOf hmem ha hcount hbits]
  simp

variable [Scalar R]

theorem Lockstep.ask_eq (h : session.Lockstep m n) (hp : p.InRange) (hn : n ≤ p.total) (t : κ) :
    Plan.ask (StoppingPolicy.repetitions p).criterion session.accumulators session.pending t =
      (.ok (if p.wanted n = 0 then [] else session.pending.map (·, p.wanted n)), t) := by
  apply Plan.ask_uniform
  intro k hk
  rw [h.pending_eq, ← h.length_eq] at hk
  have hlt := List.mem_range.mp hk
  have hrep := h.repetitions_eq _ (List.getElem_mem hlt)
  refine ⟨session.accumulators[k], List.getElem?_eq_getElem hlt, congrArg Except.ok ?_⟩
  rw [RepetitionPolicy.more_eq hp (by omega), hrep]

theorem Lockstep.requests_agree (h : session.Lockstep m n) (hp : p.InRange) (hn : n ≤ p.total)
    {requests : List (Nat × Nat)} {t t' : κ}
    (hask : Plan.ask (StoppingPolicy.repetitions p).criterion session.accumulators session.pending
      t = (.ok requests, t')) : (aggregateRequests (requests.map Prod.snd)).2 = none := by
  rw [h.ask_eq hp hn] at hask
  cases hask
  split
  next => rfl
  next => rw [map_snd_uniform, aggregateRequests_uniform]

theorem Lockstep.next_of_done (h : session.Lockstep m p.total) (hp : p.InRange) (t : κ) :
    Plan.next (StoppingPolicy.repetitions p).criterion session.accumulators ceiling
      session.pending t = (.ok Plan.done, t) := by
  have hwanted : p.wanted p.total = 0 := by simp [RepetitionPolicy.wanted]
  unfold Plan.next
  rw [h.ask_eq hp (Nat.le_refl _)]
  simp [hwanted, Except.bind, Plan.ofRequests]

/-- With shots left to take, all accumulators stay pending for a chunk or a share of the ceiling. -/
theorem Lockstep.next_eq (h : session.Lockstep m n) (hp : p.InRange) (hm : 0 < m)
    (hn : n < p.total) (hceiling : ceiling < maxWord) (t : κ) :
    Plan.next (StoppingPolicy.repetitions p).criterion session.accumulators ceiling
        session.pending t =
      (if ceiling / m < p.wanted n ∧ ceiling / m < minRepetitions then
        .error (.tooManySweeps m (ceiling / m) ceiling)
      else .ok ⟨session.pending, min (p.wanted n) (ceiling / m),
        if ceiling / m < p.wanted n then [.throttled (p.wanted n) (ceiling / m) ceiling] else []⟩,
      t) := by
  have hlen : session.pending.length = m := by rw [h.pending_eq, List.length_range]
  have hpending : session.pending ≠ [] := List.ne_nil_of_length_pos (by omega)
  have hwanted := RepetitionPolicy.wanted_pos hp hn
  unfold Plan.next
  rw [h.ask_eq hp (Nat.le_of_lt hn), if_neg (by omega)]
  simp only [Except.bind]
  rw [Plan.ofRequests_uniform hceiling hpending, hlen]

theorem Lockstep.next_of_refused (h : session.Lockstep m n) (hp : p.InRange) (hm : 0 < m)
    (hn : n < p.total) (hceiling : ceiling < maxWord) (hrefused : p.Refused (ceiling / m) n)
    (t : κ) :
    Plan.next (StoppingPolicy.repetitions p).criterion session.accumulators ceiling
      session.pending t = (.error (.tooManySweeps m (ceiling / m) ceiling), t) := by
  rw [h.next_eq hp hm hn hceiling]
  exact congrArg (·, t) (if_pos hrefused)

theorem Lockstep.next_of_granted (h : session.Lockstep m n) (hp : p.InRange) (hm : 0 < m)
    (hn : n < p.total) (hceiling : ceiling < maxWord) (hgranted : ¬ p.Refused (ceiling / m) n)
    (t : κ) :
    ∃ notices, Plan.next (StoppingPolicy.repetitions p).criterion session.accumulators ceiling
        session.pending t =
        (.ok ⟨session.pending, min (p.wanted n) (ceiling / m), notices⟩, t) ∧
      ∀ requested chosen, .divergentRepetitions requested chosen ∉ notices := by
  rw [h.next_eq hp hm hn hceiling]
  refine ⟨_, congrArg (·, t) (if_neg hgranted), fun requested chosen => ?_⟩
  split <;> simp

variable {sampler : Sampler R σ} {criterion : Criterion R κ} {config : MeasurementConfig}
  {job : Job R} {s s' : σ} {t t' : κ}

/-- What a sampler that keeps its word delivers is taken in. -/
theorem exists_delivery {call : Call R} (hl : session.LaidOut job)
    (hd : sampler.Delivers job.program job.qubits.length)
    (hc : call? sampler criterion config job session s t = some call) :
    ∃ results accumulators, call.answer = .ok results ∧
      results.length = call.request.sweep.points.length ∧
      (∀ result ∈ results, ∃ bits, result.measurements.get? BasisChange.key = some bits ∧
        bits.rowCount = call.request.repetitions) ∧
      deliver? call.variants results session.accumulators = .ok accumulators := by
  obtain ⟨_, _, _, _, hanswer⟩ := call?_eq_some hc
  obtain ⟨results, hr, hlen, hbits⟩ := hd call.request s (submits_of_call? hc).program_eq
  rw [← hanswer] at hr
  cases hdeliver : deliver? call.variants results session.accumulators with
  | ok accumulators =>
    refine ⟨results, accumulators, hr, hlen, fun result hm => ?_, hdeliver⟩
    obtain ⟨bits, hb, _, hcount⟩ := hbits result hm
    exact ⟨bits, hb, hcount⟩
  | error e =>
    refine absurd (faults_of_deliver? hl hc hr hdeliver) (call.not_faults hr hlen ?_)
    intro result hm
    obtain ⟨bits, hb, hwidth, _⟩ := hbits result hm
    exact ⟨bits, hb, hwidth⟩

theorem Lockstep.round_of_done (h : session.Lockstep m p.total) (hp : p.InRange)
    (sampler : Sampler R σ) (config : MeasurementConfig) (job : Job R) (s : σ) (t : κ) :
    round sampler (StoppingPolicy.repetitions p).criterion config job session s t =
      (.finished ⟨session.accumulators, session.notices, session.rounds⟩, s, t) := by
  unfold round
  rw [h.next_of_done hp]
  simp [Plan.done]

theorem Lockstep.round_of_refused (h : session.Lockstep m n) (hp : p.InRange) (hm : 0 < m)
    (hn : n < p.total) (hceiling : ceiling < maxWord) (hrefused : p.Refused (ceiling / m) n)
    (sampler : Sampler R σ) (job : Job R) (s : σ) (t : κ) :
    round sampler (StoppingPolicy.repetitions p).criterion ⟨ceiling, symmetrize, none⟩ job session s
        t = (.failed (.tooManySweeps m (ceiling / m) ceiling), s, t) ∧
      call? sampler (StoppingPolicy.repetitions p).criterion ⟨ceiling, symmetrize, none⟩ job session
        s t = none := by
  unfold round call?
  rw [h.next_of_refused hp hm hn hceiling hrefused]
  exact ⟨rfl, rfl⟩

theorem Lockstep.next_plan (h : session.Lockstep m n) (hl : session.LaidOut job)
    (hj : job.IsSteady sampler p ceiling m) (hn : n < p.total)
    (hgranted : ¬ p.Refused (ceiling / m) n) (t : κ) :
    ∃ plan, Plan.next (StoppingPolicy.repetitions p).criterion session.accumulators ceiling
        session.pending t = (.ok plan, t) ∧
      plan.pending = List.range m ∧ plan.pending ≠ [] ∧
      (∀ k ∈ plan.pending, k < job.specs.length) ∧
      plan.repetitions = min (p.wanted n) (ceiling / m) ∧
      ∀ requested chosen, .divergentRepetitions requested chosen ∉ plan.notices := by
  obtain ⟨notices, hnext, hnotices⟩ :=
    h.next_of_granted hj.inRange hj.specs_pos hn hj.ceiling_lt hgranted t
  have hpending : session.pending ≠ [] := by
    rw [h.pending_eq]
    exact List.ne_nil_of_length_pos (by simpa using hj.specs_pos)
  exact ⟨_, hnext, h.pending_eq, hpending, fun k hk => hl.length_eq ▸ hl.pending_lt k hk, rfl,
    hnotices⟩

/-- A plan that is not refused is submitted for all accumulators, if it leaves every variant a
repetition. -/
theorem Lockstep.exists_call? (h : session.Lockstep m n) (hl : session.LaidOut job)
    (hj : job.IsSteady sampler p ceiling m) (hn : n < p.total)
    (hgranted : ¬ p.Refused (ceiling / m) n)
    (hshare : Variant.share symmetrize (min (p.wanted n) (ceiling / m)) ≠ 0) (s : σ) (t : κ) :
    ∃ call, call? sampler (StoppingPolicy.repetitions p).criterion ⟨ceiling, symmetrize, none⟩ job
        session s t = some call ∧
      call.plan.pending = List.range m ∧
      call.plan.repetitions = min (p.wanted n) (ceiling / m) ∧
      (∀ requested chosen, .divergentRepetitions requested chosen ∉ call.plan.notices) ∧
      (Plan.next (StoppingPolicy.repetitions p).criterion session.accumulators ceiling
        session.pending t).2 = t := by
  obtain ⟨plan, hnext, hpending, hne, hlt, hrepetitions, hnotices⟩ :=
    h.next_plan hl hj hn hgranted t
  have hsub := submission?_of_covers ⟨ceiling, symmetrize, none⟩ plan hj.covers hlt
  rw [hrepetitions, if_neg hshare] at hsub
  obtain ⟨variants, request, hsub⟩ := hsub
  exact ⟨⟨plan, variants, request, (sampler request s).1⟩,
    call?_of_submission? (congrArg Prod.fst hnext) hne rfl hsub, hpending, hrepetitions, hnotices,
    congrArg Prod.snd hnext⟩

/-- A round that is granted adds to every accumulator what it wants, cut down to the share, less an
odd shot with symmetrization. -/
theorem Lockstep.round_of_granted (h : session.Lockstep m n) (hl : session.LaidOut job)
    (hj : job.IsSteady sampler p ceiling m) (hn : n < p.total)
    (hgranted : ¬ p.Refused (ceiling / m) n)
    (hshare : Variant.share symmetrize (min (p.wanted n) (ceiling / m)) ≠ 0) (s : σ) (t : κ) :
    ∃ session' s', round sampler (StoppingPolicy.repetitions p).criterion
        ⟨ceiling, symmetrize, none⟩ job session s t = (.continued session', s', t) ∧
      session'.Lockstep m (n + Variant.shots symmetrize (min (p.wanted n) (ceiling / m))) ∧
      session'.rounds = session.rounds + 1 := by
  obtain ⟨call, hc, hpending, hrepetitions, hnotices, hstate⟩ :=
    h.exists_call? hl hj hn hgranted hshare s t
  obtain ⟨results, accumulators, ha, hlen, hbits, hdeliver⟩ := exists_delivery hl hj.delivers hc
  have hround := round_of_call? hc
  simp only [ha, hdeliver, hstate] at hround
  have hs := submits_of_call? hc
  have hnodup : session.pending.Nodup := h.pending_eq ▸ List.nodup_range
  obtain ⟨hsize, hext⟩ := round_extends hnodup hc hround
  have hcount : results.length = m * if symmetrize then 2 else 1 := by
    have hvariants := Variant.ofPending?_length hs.variants_eq
    rw [hpending, List.length_range] at hvariants
    exact hlen.trans (hs.points.length_eq.symm.trans hvariants)
  refine ⟨_, _, hround, ⟨hsize.trans h.length_eq, hpending, fun b hb => ?_, ?_⟩, rfl⟩
  · obtain ⟨k, a, hk, hab⟩ := exists_getElem?_of_mem hsize hext hb
    have hlt : k < m := h.length_eq ▸ (List.getElem?_eq_some_iff.mp hk).1
    have hadded : (call.batchesOf symmetrize k).flatten.length =
        Variant.shots symmetrize (min (p.wanted n) (ceiling / m)) := by
      rw [length_batchesOf hpending hlt ha hcount hbits, hs.repetitions_eq, hrepetitions]
      rfl
    have hrows := congrArg List.length hab.rows_eq
    rw [List.length_append, hadded] at hrows
    exact hrows.trans (congrArg (· + _) (h.repetitions_eq a (List.mem_of_getElem? hk)))
  · intro requested chosen hmem
    rcases List.mem_append.mp hmem with hold | hnew
    · exact h.unanimous requested chosen hold
    · exact hnotices requested chosen hnew

/-- A round that leaves no repetition for each variant fails before its call. -/
theorem Lockstep.round_of_no_share (h : session.Lockstep m n) (hl : session.LaidOut job)
    (hj : job.IsSteady sampler p ceiling m) (hn : n < p.total)
    (hgranted : ¬ p.Refused (ceiling / m) n)
    (hshare : Variant.share symmetrize (min (p.wanted n) (ceiling / m)) = 0) (s : σ) (t : κ) :
    round sampler (StoppingPolicy.repetitions p).criterion ⟨ceiling, symmetrize, none⟩ job session s
        t = (.failed (.zeroRepetitions (min (p.wanted n) (ceiling / m))), s, t) ∧
      call? sampler (StoppingPolicy.repetitions p).criterion ⟨ceiling, symmetrize, none⟩ job session
        s t = none := by
  obtain ⟨plan, hnext, _, hne, hlt, hrepetitions, _⟩ := h.next_plan hl hj hn hgranted t
  have hsub := submission?_of_covers ⟨ceiling, symmetrize, none⟩ plan hj.covers hlt
  rw [hrepetitions, if_pos hshare] at hsub
  unfold round call?
  rw [hnext]
  simp [hne, limitReached?, hsub]

/-- A round of accumulators in lockstep that goes on keeps them so. -/
theorem Lockstep.round_eq_continued (h : session.Lockstep m n) (hl : session.LaidOut job)
    (hj : job.IsSteady sampler p ceiling m) (hn : n ≤ p.total)
    (hr : round sampler (StoppingPolicy.repetitions p).criterion ⟨ceiling, symmetrize, none⟩ job
      session s t = (.continued session', s', t')) :
    ∃ n', n' ≤ p.total ∧ session'.Lockstep m n' := by
  rcases Nat.eq_or_lt_of_le hn with rfl | hlt
  · rw [h.round_of_done hj.inRange] at hr
    cases hr
  · by_cases hrefused : p.Refused (ceiling / m) n
    · rw [(h.round_of_refused hj.inRange hj.specs_pos hlt hj.ceiling_lt hrefused sampler job s
        t).1] at hr
      cases hr
    · by_cases hshare : Variant.share symmetrize (min (p.wanted n) (ceiling / m)) = 0
      · rw [(h.round_of_no_share hl hj hlt hrefused hshare s t).1] at hr
        cases hr
      · obtain ⟨next, s₁, hround, hnext, _⟩ := h.round_of_granted hl hj hlt hrefused hshare s t
        rw [hround] at hr
        cases hr
        have hshots := Variant.shots_le symmetrize (min (p.wanted n) (ceiling / m))
        refine ⟨_, ?_, hnext⟩
        unfold RepetitionPolicy.wanted at hshots ⊢
        omega

/-- Accumulators that start in lockstep are so in every round. -/
theorem history_lockstep {fuel : Nat} {v : Visit R} (h : session.Lockstep m 0)
    (hl : session.LaidOut job) (hj : job.IsSteady sampler p ceiling m)
    (hv : v ∈ history sampler (StoppingPolicy.repetitions p).criterion ⟨ceiling, symmetrize, none⟩
      job fuel session s t) : ∃ n ≤ p.total, v.session.Lockstep m n := by
  obtain ⟨⟨_, hlock⟩, _⟩ := history_invariant
    (P := fun session => session.LaidOut job ∧ ∃ n ≤ p.total, session.Lockstep m n)
    ⟨hl, 0, Nat.zero_le _, h⟩ (fun hstep hr => by
      obtain ⟨hl, n, hn, h⟩ := hstep
      exact ⟨round_keeps_laidOut hl hr, h.round_eq_continued hl hj hn hr⟩) hv
  exact hlock

theorem run_of_refused {fuel : Nat} (h : session.Lockstep m 0) (hp : p.InRange) (hm : 0 < m)
    (hceiling : ceiling < maxWord) (hrefused : p.Refused (ceiling / m) 0) (hfuel : 0 < fuel)
    (sampler : Sampler R σ) (job : Job R) (s : σ) (t : κ) :
    Session.run sampler (StoppingPolicy.repetitions p).criterion ⟨ceiling, symmetrize, none⟩ job
        fuel session s t = (some (.error (.tooManySweeps m (ceiling / m) ceiling)), s, t) ∧
      calls (history sampler (StoppingPolicy.repetitions p).criterion ⟨ceiling, symmetrize, none⟩
        job fuel session s t) = [] := by
  have htotal : 0 < p.total :=
    Nat.lt_of_lt_of_le (Nat.zero_lt_of_lt hrefused.1) (Nat.min_le_right _ _)
  obtain ⟨fuel, rfl⟩ := Nat.exists_eq_succ_of_ne_zero (Nat.ne_of_gt hfuel)
  obtain ⟨hround, hcall⟩ := h.round_of_refused hp hm htotal hceiling hrefused sampler job s t
  rw [Session.run, Session.history, hround, hcall]
  exact ⟨rfl, rfl⟩

end Session

theorem Job.start?_lockstep [Scalar R] {c : Circuit R} {groups : List (SettingGroup R)}
    {sweep : Sweep R} {job : Job R} {session : Session R}
    (h : start? c groups sweep = .ok (job, session)) :
    session.Lockstep (groups.length * sweep.points.length) 0 ∧ session.rounds = 0 := by
  have hempty := repetitions_of_start? h
  have hlen := (start?_accumulators h).1
  obtain ⟨blocks, _, _, rfl⟩ := start?_eq_ok h
  exact ⟨⟨hlen, congrArg List.range hlen, hempty, by simp⟩, rfl⟩

/-- Groups that fit start a steady job, with nothing taken yet. -/
theorem Job.exists_steady [Scalar R] {sampler : Sampler R σ} {p : RepetitionPolicy}
    {ceiling : Nat} {groups : List (SettingGroup R)} (c : Circuit R) (sweep : Sweep R)
    (hp : p.InRange) (hceiling : ceiling < maxWord)
    (hfits : ∀ g ∈ groups, g.Fits (qubitsOf groups))
    (hspecs : 0 < groups.length * sweep.points.length)
    (hd : sampler.Delivers (BasisChange.template c (qubitsOf groups)
      (BasisChange.needsInitial (groups.map SettingGroup.max))) (qubitsOf groups).length) :
    ∃ job session, start? c groups sweep = .ok (job, session) ∧
      job.IsSteady sampler p ceiling (groups.length * sweep.points.length) ∧
      session.LaidOut job ∧ session.Lockstep (groups.length * sweep.points.length) 0 ∧
      session.rounds = 0 := by
  obtain ⟨job, session, hstart⟩ := start?_of_fits c sweep hfits
  refine ⟨job, session, hstart, ⟨start?_covers hstart, ?_, hp, hceiling, hspecs⟩,
    start?_laidOut hstart, start?_lockstep hstart⟩
  obtain ⟨_, _, rfl, _⟩ := start?_eq_ok hstart
  exact hd

theorem unevenGroups_fit : ∀ g ∈ unevenGroups, g.Fits (Job.qubitsOf unevenGroups) := by
  intro g hg
  have hcases : g = ⟨readingZ ⟨0⟩, [readingZ ⟨0⟩]⟩ ∨
      g = ⟨readingZ ⟨1⟩, [readingZ ⟨1⟩, readingZ ⟨1⟩]⟩ := by simpa [unevenGroups] using hg
  rcases hcases with rfl | rfl
  · exact ⟨by decide, by decide⟩
  · exact ⟨by decide, by decide⟩

theorem alternatingSampler_delivers (program : Circuit Float)
    (h : 0 < (program.measurements.flatMap Prod.snd).length) :
    Sampler.Delivers alternatingSampler program
      (program.measurements.flatMap Prod.snd).length := by
  rintro request s rfl
  refine ⟨_, rfl, by simp, fun result hr => ?_⟩
  obtain ⟨e, _, rfl⟩ := List.mem_map.mp hr
  have hwidth := Nat.ne_of_gt h
  refine ⟨_, (Bindings.get?_set _ _ _ _).trans (if_pos rfl), ?_, ?_⟩
  · simp [BitMatrix.replicate]
  · simp only [BitMatrix.rowCount, BitMatrix.replicate, BitMatrix.rows_ofFitting, BitMatrix.kept,
      List.length_replicate, if_neg hwidth]

end PauliEstimation
