import PauliEstimation.Proofs.Measurement.Convergence
import PauliEstimation.Proofs.Measurement.Lockstep

namespace PauliEstimation

variable {R σ κ : Type}

/-- Every matrix of joint bits in an answer has one row for each requested repetition. Rows without
columns are not counted. -/
def Sampler.FillsRequests (sampler : Sampler R σ) (program : Circuit R) : Prop :=
  ∀ request s results, request.program = program → (sampler request s).1 = .ok results →
    ∀ result ∈ results, ∀ bits, result.measurements.get? BasisChange.key = some bits →
      0 < bits.width → bits.rowCount = request.repetitions

theorem Sampler.Delivers.fillsRequests {sampler : Sampler R σ} {program : Circuit R} {width : Nat}
    (h : sampler.Delivers program width) : sampler.FillsRequests program := by
  intro request s results hp ha result hr bits hb _
  obtain ⟨results', ha', _, hbits⟩ := h request s hp
  obtain rfl : results = results' := Except.ok.inj (ha.symm.trans ha')
  obtain ⟨bits', hb', _, hcount⟩ := hbits result hr
  obtain rfl : bits = bits' := Option.some.inj (hb.symm.trans hb')
  exact hcount

/-- The sizes of the batches that a call adds to each of its specifications. -/
def Call.sizes (symmetrize : Bool) (width : Nat) (call : Call R) : List Nat :=
  List.replicate (if symmetrize then 2 else 1) (if width = 0 then 0 else call.request.repetitions)

def Accumulator.IsCounted (a : Accumulator R) : Prop := a.batches.sum = a.repetitions

theorem Accumulator.Extends.isCounted {a b : Accumulator R} {batches : List (List (List Bool))}
    (h : a.Extends b batches) (ha : a.IsCounted) : b.IsCounted := by
  have hrows : b.repetitions = a.repetitions + (batches.map List.length).sum := by
    rw [repetitions, BitMatrix.rowCount, h.rows_eq, List.length_append, List.length_flatten]
    rfl
  rw [IsCounted, h.batches_eq, List.sum_append, ha, hrows]

namespace Session

/-- What is pending has batches of the given sizes, and what is not has the first of them. -/
structure InStep (sizes : List Nat) (session : Session R) : Prop where
  pending : ∀ k ∈ session.pending, ∃ a, session.accumulators[k]? = some a ∧ a.batches = sizes
  finished : ∀ k a, session.accumulators[k]? = some a → k ∉ session.pending → a.batches <+: sizes

structure Aligned (sizes : List Nat) (session : Session R) : Prop where
  nodup : session.pending.Nodup
  counted : ∀ a ∈ session.accumulators, a.IsCounted
  inStep : session.InStep sizes

variable {session : Session R} {sizes : List Nat}

theorem InStep.batches_prefix (h : session.InStep sizes) {k : Nat} {a : Accumulator R}
    (ha : session.accumulators[k]? = some a) : a.batches <+: sizes := by
  by_cases hk : k ∈ session.pending
  · obtain ⟨b, hb, hsizes⟩ := h.pending k hk
    obtain rfl : a = b := Option.some.inj (ha.symm.trans hb)
    rw [hsizes]
  · exact h.finished k a ha hk

theorem Aligned.repetitions_eq (h : session.Aligned sizes) {k : Nat} {a : Accumulator R}
    (hk : k ∈ session.pending) (ha : session.accumulators[k]? = some a) :
    a.repetitions = sizes.sum := by
  obtain ⟨b, hb, rfl⟩ := h.inStep.pending k hk
  obtain rfl : a = b := Option.some.inj (ha.symm.trans hb)
  exact (h.counted a (List.mem_of_getElem? ha)).symm

end Session

namespace Plan

theorem ask_agrees {criterion : Criterion R κ} {accumulators : List (Accumulator R)}
    {todo : List Nat} {t t' : κ} {requests : List (Nat × Nat)} {x : Except Fault Int}
    (hx : ∀ k ∈ todo, ∀ a, accumulators[k]? = some a → ∀ t, (criterion a t).1 = x)
    (h : ask criterion accumulators todo t = (.ok requests, t')) :
    (aggregateRequests (requests.map Prod.snd)).2 = none := by
  have hall : ∀ e ∈ requests, x = .ok (e.2 : Int) := by
    intro e he
    obtain ⟨hk, a, t₁, ha, hanswer⟩ := ask_mem h e he
    exact (hx e.1 hk a ha t₁).symm.trans hanswer
  cases requests with
  | nil => rfl
  | cons e rest =>
    obtain ⟨he, hrest⟩ := List.forall_mem_cons.mp hall
    have hreplicate : (e :: rest).map Prod.snd = List.replicate (rest.length + 1) e.2 := by
      refine List.eq_replicate_iff.mpr ⟨by simp, fun n hn => ?_⟩
      obtain ⟨d, hd, rfl⟩ := List.mem_map.mp hn
      exact Int.ofNat_inj.mp (Except.ok.inj ((hall d hd).symm.trans he))
    rw [hreplicate, aggregateRequests_uniform]

theorem divergence_of_mem_notices {ceiling chosen : Nat} {requests : List (Nat × Nat)}
    {requested : List Nat} {plan : Plan} (h : ofRequests (R := R) ceiling requests = .ok plan)
    (hm : .divergentRepetitions requested chosen ∈ plan.notices) :
    (aggregateRequests (requests.map Prod.snd)).2 ≠ none := by
  unfold ofRequests at h
  intro hnone
  split at h
  next =>
    cases h
    simp [done] at hm
  next =>
    dsimp only at h
    rw [hnone] at h
    split at h
    next =>
      cases h
      simp at hm
    next =>
      split at h
      next => cases h
      next =>
        cases h
        simp at hm

end Plan

namespace Session

variable [Scalar R] {sampler : Sampler R σ} {criterion : Criterion R κ} {config : MeasurementConfig}
  {job : Job R} {session session' : Session R} {s s' : σ} {t t' : κ} {sizes : List Nat}

theorem rows_of_continued {call : Call R} (hd : sampler.FillsRequests job.program)
    (hc : call? sampler criterion config job session s t = some call)
    (h : round sampler criterion config job session s t = (.continued session', s', t')) :
    ∃ results, call.answer = .ok results ∧
      results.length = call.plan.pending.length * (if config.symmetrize then 2 else 1) ∧
      ∀ result ∈ results, ∃ bits, result.measurements.get? BasisChange.key = some bits ∧
        bits.rowCount = if job.qubits.length = 0 then 0 else call.request.repetitions := by
  obtain ⟨results, ha, hlen, hbits⟩ := answers_of_continued hc h
  obtain ⟨_, _, _, _, hanswer⟩ := call?_eq_some hc
  have hs := submits_of_call? hc
  have hcount := hs.points.length_eq.symm.trans (Variant.ofPending?_length hs.variants_eq)
  refine ⟨results, ha, hlen.trans hcount, fun result hr => ?_⟩
  obtain ⟨bits, hb, hwidth⟩ := hbits result hr
  refine ⟨bits, hb, ?_⟩
  split
  next h0 => exact congrArg List.length (bits.rows_of_width_zero (hwidth.symm.trans h0))
  next h0 =>
    exact hd call.request s results hs.program_eq (hanswer.symm.trans ha) result hr bits hb
      (Nat.pos_of_ne_zero (hwidth ▸ h0))

theorem round_keeps_inStep {call : Call R} (hd : sampler.FillsRequests job.program)
    (hn : session.pending.Nodup) (hstep : session.InStep sizes)
    (hc : call? sampler criterion config job session s t = some call)
    (h : round sampler criterion config job session s t = (.continued session', s', t')) :
    session'.InStep (sizes ++ call.sizes config.symmetrize job.qubits.length) := by
  obtain ⟨results, ha, hlen, hrows⟩ := rows_of_continued hd hc h
  obtain ⟨hsize, hext⟩ := round_extends hn hc h
  have hpending : session'.pending = call.plan.pending := by
    obtain ⟨call', _, _, hc', _, _, rfl⟩ := round_eq_continued h
    rw [Option.some.inj (hc.symm.trans hc')]
  refine ⟨fun k hk => ?_, fun k b hb hk => ?_⟩
  · -- what is still pending was pending before and takes in the batches of the call
    rw [hpending] at hk
    obtain ⟨a, hka, rfl⟩ := hstep.pending k ((Plan.next_sublist (call?_eq_some hc).1).subset hk)
    obtain ⟨b, hb, hab⟩ := hext k a hka
    rw [Call.sizes, ← call.map_length_batchesOf hk ha hlen hrows]
    exact ⟨b, hb, hab.batches_eq⟩
  · -- the others get nothing, and what they have stays a prefix
    have hka := List.getElem?_eq_getElem (hsize ▸ (List.getElem?_eq_some_iff.mp hb).1)
    obtain ⟨b', hb', hab⟩ := hext k _ hka
    obtain rfl : b = b' := Option.some.inj (hb.symm.trans hb')
    rw [call.batchesOf_eq_nil (hpending ▸ hk)] at hab
    rw [hab.eq_of_nil]
    exact (hstep.batches_prefix hka).trans (List.prefix_append _ _)

theorem round_keeps_aligned {call : Call R} (hd : sampler.FillsRequests job.program)
    (hal : session.Aligned sizes)
    (hc : call? sampler criterion config job session s t = some call)
    (h : round sampler criterion config job session s t = (.continued session', s', t')) :
    session'.Aligned (sizes ++ call.sizes config.symmetrize job.qubits.length) := by
  refine ⟨?_, fun b hb => ?_, round_keeps_inStep hd hal.nodup hal.inStep hc h⟩
  · obtain ⟨call', _, _, hc', _, _, rfl⟩ := round_eq_continued h
    exact nodup_of_call? hal.nodup hc'
  · obtain ⟨hsize, hext⟩ := round_extends hal.nodup hc h
    obtain ⟨_, a, hk, hab⟩ := exists_getElem?_of_mem hsize hext hb
    exact hab.isCounted (hal.counted a (List.mem_of_getElem? hk))

omit [Scalar R] in
theorem Aligned.requests_agree (hal : session.Aligned sizes) {f : Nat → Except Fault Int}
    (hf : ∀ a t, (criterion a t).1 = f a.repetitions) {requests : List (Nat × Nat)}
    (hask : Plan.ask criterion session.accumulators session.pending t = (.ok requests, t')) :
    (aggregateRequests (requests.map Prod.snd)).2 = none := by
  refine Plan.ask_agrees (x := f sizes.sum) (fun k hk a ha t => ?_) hask
  rw [hf, hal.repetitions_eq hk ha]

omit [Scalar R] in
theorem Aligned.plan_unanimous (hal : session.Aligned sizes) {f : Nat → Except Fault Int}
    (hf : ∀ a t, (criterion a t).1 = f a.repetitions) {ceiling : Nat} {plan : Plan}
    (hplan : (Plan.next criterion session.accumulators ceiling session.pending t).1 = .ok plan)
    (requested : List Nat) (chosen : Nat) :
    .divergentRepetitions requested chosen ∉ plan.notices := by
  obtain ⟨requests, hask, hrequests⟩ := Plan.next_eq_ok hplan
  exact fun hm => Plan.divergence_of_mem_notices hrequests hm (hal.requests_agree hf hask)

/-- A run of aligned accumulators under such a criterion never reports a divergence. -/
theorem run_unanimous {fuel : Nat} {run : MeasurementRun R} {f : Nat → Except Fault Int}
    (hd : sampler.FillsRequests job.program) (hal : session.Aligned sizes)
    (hf : ∀ a t, (criterion a t).1 = f a.repetitions)
    (hnone : ∀ requested chosen, .divergentRepetitions requested chosen ∉ session.notices)
    (h : Session.run sampler criterion config job fuel session s t = (some (.ok run), s', t')) :
    ∀ requested chosen, .divergentRepetitions requested chosen ∉ run.notices := by
  obtain ⟨_, last, s₁, t₁, ⟨⟨_, hlast⟩, hnotices⟩, hfin, _⟩ := run_eq_ok
    (P := fun session => (∃ sizes, session.Aligned sizes) ∧
      ∀ requested chosen, .divergentRepetitions requested chosen ∉ session.notices)
    ⟨⟨_, hal⟩, hnone⟩ (fun hkeep hr => by
      obtain ⟨⟨_, hal⟩, hnone⟩ := hkeep
      obtain ⟨call, _, _, hc, _, _, hnext⟩ := round_eq_continued hr
      refine ⟨⟨_, round_keeps_aligned hd hal hc hr⟩, fun requested chosen hm => ?_⟩
      rw [hnext] at hm
      rcases List.mem_append.mp hm with hold | hnew
      · exact hnone requested chosen hold
      · exact hal.plan_unanimous hf (call?_eq_some hc).1 requested chosen hnew) h
  obtain ⟨plan, hplan, _, rfl⟩ := round_eq_finished hfin
  intro requested chosen hm
  rcases List.mem_append.mp hm with hold | hnew
  · exact hnotices requested chosen hold
  · exact hlast.plan_unanimous hf hplan requested chosen hnew

end Session

theorem Job.start?_aligned [Scalar R] {c : Circuit R} {groups : List (SettingGroup R)}
    {sweep : Sweep R} {job : Job R} {session : Session R}
    (h : start? c groups sweep = .ok (job, session)) : session.Aligned [] := by
  have hmem := mem_accumulators_of_start? h
  have hbatches : ∀ a ∈ session.accumulators, a.batches = [] := by
    intro a ha
    obtain ⟨_, _, _, _, rfl⟩ := hmem a ha
    rfl
  have hempty := repetitions_of_start? h
  obtain ⟨blocks, _, _, rfl⟩ := start?_eq_ok h
  refine ⟨List.nodup_range, fun a ha => ?_, fun k hk => ?_, fun k a ha hk => ?_⟩
  · rw [Accumulator.IsCounted, hbatches a ha, hempty a ha, List.sum_nil]
  · have hlt := List.mem_range.mp hk
    exact ⟨_, List.getElem?_eq_getElem hlt, hbatches _ (List.getElem_mem hlt)⟩
  · exact absurd (List.mem_range.mpr (List.getElem?_eq_some_iff.mp ha).1) hk

/-- At the start of every round the pending accumulators have the batches of all calls so far, and
the others those of the first calls. Under a criterion that looks at nothing but the repetitions no
plan of a measurement reports a divergence. -/
theorem accumulators_stay_in_step [Scalar R] (sampler : Sampler R σ) (criterion : Criterion R κ)
    (config : MeasurementConfig) (c : Circuit R) (groups : List (SettingGroup R))
    (sweep : Sweep R) (fuel : Nat) (s : σ) (t : κ)
    (hd : sampler.FillsRequests (BasisChange.template c (Job.qubitsOf groups)
      (BasisChange.needsInitial (groups.map SettingGroup.max)))) :
    let history := measureHistory sampler criterion config c groups sweep fuel s t
    (∀ before v after, history = before ++ v :: after →
      v.session.InStep ((Session.calls before).flatMap
        (Call.sizes config.symmetrize (Job.qubitsOf groups).length))) ∧
    ∀ f : Nat → Except Fault Int, (∀ a t, (criterion a t).1 = f a.repetitions) →
      (∀ v ∈ history, ∀ requests t₁ t₂,
        Plan.ask criterion v.session.accumulators v.session.pending t₁ = (.ok requests, t₂) →
          (aggregateRequests (requests.map Prod.snd)).2 = none) ∧
      ∀ run s' t', measure sampler criterion config c groups sweep fuel s t =
        (some (.ok run), s', t') →
        ∀ requested chosen, .divergentRepetitions requested chosen ∉ run.notices := by
  intro history
  cases hstart : Job.start? c groups sweep with
  | error e => simp [history, measureHistory, measure, hstart]
  | ok started =>
    obtain ⟨job, session⟩ := started
    have halign := Job.start?_aligned hstart
    obtain ⟨houtcome, hhistory⟩ := measure_of_start? hstart sampler criterion config fuel s t
    obtain ⟨_, _, hjob, hsession⟩ := Job.start?_eq_ok hstart
    have hfills : sampler.FillsRequests job.program := by rw [hjob]; exact hd
    have hwidth : job.qubits.length = (Job.qubitsOf groups).length := by rw [hjob]
    have halong : ∀ before v after, history = before ++ v :: after →
        v.session.Aligned ((Session.calls before).flatMap
          (Call.sizes config.symmetrize (Job.qubitsOf groups).length)) := by
      intro before v after hvisits
      refine Session.history_along (P := fun calls session =>
        session.Aligned (calls.flatMap
          (Call.sizes config.symmetrize (Job.qubitsOf groups).length)))
        [] halign (fun hal hc hr => ?_) (hhistory.symm.trans hvisits)
      rw [List.flatMap_append, List.flatMap_singleton, ← hwidth] at *
      exact Session.round_keeps_aligned hfills hal hc hr
    refine ⟨fun before v after hv => (halong before v after hv).inStep, fun f hf => ⟨?_, ?_⟩⟩
    · intro v hv requests t₁ t₂ hask
      obtain ⟨before, after, hvisits⟩ := List.append_of_mem hv
      exact (halong before v after hvisits).requests_agree hf hask
    · intro run s' t' hrun
      exact Session.run_unanimous hfills halign hf (by rw [hsession]; simp)
        (houtcome.symm.trans hrun)

/-- The first of two groups is done with the first of two batches. A criterion on the repetitions
asks both for the same. -/
theorem accumulators_stay_in_step_uneven :
    Sampler.FillsRequests alternatingSampler (BasisChange.template ∅ (Job.qubitsOf unevenGroups)
        (BasisChange.needsInitial (unevenGroups.map SettingGroup.max))) ∧
      (∃ v₀ v₁ v₂, measureHistory alternatingSampler (Criterion.ofFunction twoShotsPerSetting) {} ∅
          unevenGroups Sweep.unit 3 0 () = [v₀, v₁] ++ v₂ :: [] ∧
        v₂.session.pending = [1] ∧ v₂.session.InStep [2, 2]) ∧
      ∃ run s t, measure alternatingSampler (Criterion.ofFunction fun a =>
          .ok (if a.repetitions < 5 then 3 else 0)) {} ∅ unevenGroups Sweep.unit 3 0 () =
            (some (.ok run), s, t) ∧
        ∀ requested chosen, .divergentRepetitions requested chosen ∉ run.notices := by
  have hd : Sampler.FillsRequests alternatingSampler (BasisChange.template ∅
      (Job.qubitsOf unevenGroups) (BasisChange.needsInitial (unevenGroups.map SettingGroup.max))) :=
    (alternatingSampler_delivers _ (by decide)).fillsRequests
  refine ⟨hd, ?_, ?_⟩
  · obtain ⟨v₀, v₁, v₂, hhistory, hpending, hsizes⟩ : ∃ v₀ v₁ v₂,
        measureHistory alternatingSampler (Criterion.ofFunction twoShotsPerSetting) {} ∅
          unevenGroups Sweep.unit 3 0 () = [v₀, v₁] ++ v₂ :: [] ∧ v₂.session.pending = [1] ∧
        (Session.calls [v₀, v₁]).flatMap (Call.sizes false (Job.qubitsOf unevenGroups).length) =
          [2, 2] := ⟨_, _, _, rfl, rfl, rfl⟩
    obtain ⟨hstep, _⟩ := accumulators_stay_in_step alternatingSampler
      (Criterion.ofFunction twoShotsPerSetting) {} ∅ unevenGroups Sweep.unit 3 0 () hd
    exact ⟨v₀, v₁, v₂, hhistory, hpending, hsizes ▸ hstep [v₀, v₁] v₂ [] hhistory⟩
  · obtain ⟨run, s, t, hrun⟩ : ∃ run s t, measure alternatingSampler (Criterion.ofFunction fun a =>
        .ok (if a.repetitions < 5 then 3 else 0)) {} ∅ unevenGroups Sweep.unit 3 0 () =
          (some (.ok run), s, t) := ⟨_, _, _, rfl⟩
    obtain ⟨_, hunanimous⟩ := accumulators_stay_in_step alternatingSampler
      (Criterion.ofFunction fun a => .ok (if a.repetitions < 5 then 3 else 0)) {} ∅ unevenGroups
      Sweep.unit 3 0 () hd
    obtain ⟨_, hnotices⟩ := hunanimous (fun n => .ok (if n < 5 then 3 else 0)) fun _ _ => rfl
    exact ⟨run, s, t, hrun, hnotices run s t hrun⟩

end PauliEstimation
