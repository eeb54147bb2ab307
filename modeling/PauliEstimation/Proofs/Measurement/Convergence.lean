import PauliEstimation.Proofs.Measurement.Delivery
import PauliEstimation.Proofs.Measurement.History

namespace PauliEstimation

variable {R σ κ : Type} [Scalar R]

omit [Scalar R] in
theorem Session.batchesFor_eq_nil {k : Nat} {delivered : List (Variant R × PointResult R)}
    (h : ∀ e ∈ delivered, e.1.index ≠ k) : batchesFor k delivered = [] := by
  apply List.flatMap_eq_nil_iff.mpr
  intro e he
  rw [if_neg (h e he)]

/-- Every accumulator that is no longer pending is answered by zero. -/
def Session.Settled (f : Accumulator R → Except Fault Int) (session : Session R) : Prop :=
  ∀ k a, session.accumulators[k]? = some a → k ∉ session.pending → f a = .ok 0

namespace Session

variable {sampler : Sampler R σ} {f : Accumulator R → Except Fault Int}
  {config : MeasurementConfig} {job : Job R} {session session' : Session R} {s s' : σ} {t t' : κ}

theorem call?_avoids_converged {call : Call R} {k : Nat} {a : Accumulator R}
    (h : call? sampler (Criterion.ofFunction f) config job session s t = some call)
    (ha : session.accumulators[k]? = some a) (hf : f a = .ok 0) :
    k ∉ call.plan.pending ∧ ∀ v ∈ call.variants, v.index ≠ k := by
  obtain ⟨hn, _, _, _, _⟩ := call?_eq_some h
  have hk : k ∉ call.plan.pending := by
    intro hp
    obtain ⟨b, answer, hb, hfb, hiff⟩ :=
      Plan.next_ofFunction_answers hn k ((Plan.next_sublist hn).subset hp)
    obtain rfl : a = b := Option.some.inj (ha.symm.trans hb)
    exact hiff.mp hp (Except.ok.inj (hfb.symm.trans hf))
  refine ⟨hk, ?_⟩
  intro v hv hvk
  have hm := Variant.index_mem_of_ofPending? (submits_of_call? h).variants_eq hv
  exact hk (hvk ▸ hm)

omit [Scalar R] in
/-- In a settled session the plan leaves out only what the criterion answers by zero. -/
theorem Settled.answered {plan : Plan} {k : Nat} {a : Accumulator R} (hset : session.Settled f)
    (hn : (Plan.next (Criterion.ofFunction f) session.accumulators config.maxRepetitionsPerJob
      session.pending t).1 = .ok plan)
    (ha : session.accumulators[k]? = some a) (hk : k ∉ plan.pending) : f a = .ok 0 := by
  by_cases hp : k ∈ session.pending
  · obtain ⟨b, answer, hb, hfb, hiff⟩ := Plan.next_ofFunction_answers hn k hp
    obtain rfl : a = b := Option.some.inj (ha.symm.trans hb)
    have hzero : answer = 0 := by
      by_contra hne
      exact hk (hiff.mpr hne)
    rw [hfb, hzero]
  · exact hset k a ha hp

/-- A round changes no accumulator that its call leaves out. -/
theorem round_keeps_unsubmitted {criterion : Criterion R κ} {k : Nat} {a : Accumulator R}
    (h : round sampler criterion config job session s t = (.continued session', s', t'))
    (ha : session.accumulators[k]? = some a)
    (hk : ∀ call, call? sampler criterion config job session s t = some call →
      ∀ v ∈ call.variants, v.index ≠ k) :
    session'.accumulators[k]? = some a := by
  obtain ⟨call, results, accumulators, hc, _, hd, rfl⟩ := round_eq_continued h
  obtain ⟨_, hfold⟩ := deliver?_eq_ok hd
  obtain ⟨b, hb, hext⟩ := (deliverAll_extends hfold).2 k a ha
  have hnone : batchesFor k (call.variants.zip results) = [] :=
    batchesFor_eq_nil fun e he => hk call hc e.1 (List.of_mem_zip he).1
  rw [hnone] at hext
  rw [← hext.eq_of_nil]
  exact hb

theorem round_keeps_converged {k : Nat} {a : Accumulator R}
    (h : round sampler (Criterion.ofFunction f) config job session s t =
      (.continued session', s', t'))
    (ha : session.accumulators[k]? = some a) (hf : f a = .ok 0) :
    session'.accumulators[k]? = some a :=
  round_keeps_unsubmitted h ha fun _ hc => (call?_avoids_converged hc ha hf).2

theorem round_keeps_settled (hset : session.Settled f)
    (h : round sampler (Criterion.ofFunction f) config job session s t =
      (.continued session', s', t')) : session'.Settled f := by
  intro k b hb hk
  obtain ⟨call, results, accumulators, hc, _, hd, hs⟩ := round_eq_continued h
  obtain ⟨hn, _, _, _, _⟩ := call?_eq_some hc
  have hlen := (deliverAll_extends (deliver?_eq_ok hd).2).1
  have hlt : k < session.accumulators.length := by
    have := (List.getElem?_eq_some_iff.mp hb).1
    rw [hs] at this
    simpa only [hlen] using this
  obtain ⟨a, ha⟩ : ∃ a, session.accumulators[k]? = some a :=
    ⟨session.accumulators[k], List.getElem?_eq_getElem hlt⟩
  have hkplan : k ∉ call.plan.pending := by
    rw [hs] at hk
    exact hk
  have hf : f a = .ok 0 := hset.answered hn ha hkplan
  have hsame := round_keeps_converged h ha hf
  rw [hb] at hsame
  rw [Option.some.inj hsame]
  exact hf

/-- A finishing round has nothing pending, so every accumulator it returns is settled. -/
theorem settled_of_finished {run : MeasurementRun R} (hset : session.Settled f)
    (h : round sampler (Criterion.ofFunction f) config job session s t =
      (.finished run, s', t')) : ∀ a ∈ run.accumulators, f a = .ok 0 := by
  obtain ⟨plan, hn, hp, rfl⟩ := round_eq_finished h
  intro a ha
  obtain ⟨k, hk⟩ := List.mem_iff_getElem?.mp ha
  exact hset.answered hn hk (by simp [hp])

theorem settled_of_run {fuel : Nat} {run : MeasurementRun R} (hset : session.Settled f)
    (h : Session.run sampler (Criterion.ofFunction f) config job fuel session s t =
      (some (.ok run), s', t')) : ∀ a ∈ run.accumulators, f a = .ok 0 := by
  obtain ⟨_, last, s₁, t₁, hlast, hfin, _⟩ := run_eq_ok
    (P := fun session => session.Settled f) hset
    (fun hset hr => round_keeps_settled hset hr) h
  exact settled_of_finished hlast hfin

end Session

theorem Job.start?_settled {c : Circuit R} {groups : List (SettingGroup R)} {sweep : Sweep R}
    {job : Job R} {session : Session R} (f : Accumulator R → Except Fault Int)
    (h : start? c groups sweep = .ok (job, session)) : session.Settled f := by
  obtain ⟨blocks, _, _, rfl⟩ := start?_eq_ok h
  intro k a ha hk
  have hlt := (List.getElem?_eq_some_iff.mp ha).1
  exact absurd (List.mem_range.mpr hlt) hk

/-- Once a criterion answers an accumulator by zero, at that round and ever after no call has a
point of it and it stays as it is, up to the result; and all accumulators of a result are answered
by zero. -/
theorem converged_accumulators_are_final (sampler : Sampler R σ)
    (f : Accumulator R → Except Fault Int) (config : MeasurementConfig) (c : Circuit R)
    (groups : List (SettingGroup R)) (sweep : Sweep R) (fuel : Nat) (s : σ) (t : κ) :
    (∀ before v after,
      measureHistory sampler (Criterion.ofFunction f) config c groups sweep fuel s t =
        before ++ v :: after →
      ∀ (k : Nat) (a : Accumulator R), v.session.accumulators[k]? = some a → f a = .ok 0 →
        (∀ w ∈ v :: after, w.session.accumulators[k]? = some a ∧
          ∀ call, w.call = some call →
            call.Binds (Job.qubitsOf groups)
              (BasisChange.needsInitial (groups.map SettingGroup.max)) ∧
            ∀ x ∈ call.variants, x.index ≠ k) ∧
        ∀ run s' t', measure sampler (Criterion.ofFunction f) config c groups sweep fuel s t =
          (some (.ok run), s', t') → run.accumulators[k]? = some a) ∧
    ∀ run s' t', measure sampler (Criterion.ofFunction f) config c groups sweep fuel s t =
      (some (.ok run), s', t') → ∀ a ∈ run.accumulators, f a = .ok 0 := by
  unfold measureHistory measure
  cases hstart : Job.start? c groups sweep with
  | error e => simp
  | ok started =>
    obtain ⟨job, session⟩ := started
    obtain ⟨blocks, _, hjob, _⟩ := Job.start?_eq_ok hstart
    constructor
    · intro before v after hhist k a ha hf
      obtain ⟨fuel', s₁, t₁, hsuffix, hrun⟩ := Session.history_suffix hhist
      constructor
      · intro w hw
        rw [hsuffix] at hw
        obtain ⟨hwa, s₂, t₂, hcall⟩ := Session.history_invariant
          (P := fun session => session.accumulators[k]? = some a) ha
          (fun hkeep hr => Session.round_keeps_converged hr hkeep hf) hw
        refine ⟨hwa, ?_⟩
        intro call hc
        have hcall := hcall.symm.trans hc
        have hbinds := (Session.submits_of_call? hcall).points
        rw [hjob] at hbinds
        exact ⟨hbinds, (Session.call?_avoids_converged hcall hwa hf).2⟩
      · intro run s' t' hok
        have hok := hrun.symm.trans hok
        obtain ⟨_, last, s₂, t₂, hlast, hfin, _⟩ := Session.run_eq_ok
          (P := fun session => session.accumulators[k]? = some a) ha
          (fun hkeep hr => Session.round_keeps_converged hr hkeep hf) hok
        obtain ⟨_, _, _, rfl⟩ := Session.round_eq_finished hfin
        exact hlast
    · intro run s' t' hok
      exact Session.settled_of_run (Job.start?_settled f hstart) hok

/-- Two shots for every setting that is read from them. -/
def twoShotsPerSetting (a : Accumulator Float) : Except Fault Int :=
  .ok (if a.repetitions < 2 * a.settings.length then 2 else 0)

/-- The first of two groups is done one round before the second. -/
theorem converged_accumulators_are_final_uneven :
    ∃ v₀ v₁ v₂ a, measureHistory alternatingSampler (Criterion.ofFunction twoShotsPerSetting) {} ∅
        unevenGroups Sweep.unit 3 0 () = [v₀] ++ v₁ :: [v₂] ∧
      v₁.session.accumulators[0]? = some a ∧ twoShotsPerSetting a = .ok 0 ∧
      v₂.session.accumulators[0]? = some a ∧
      ∃ run s t, measure alternatingSampler (Criterion.ofFunction twoShotsPerSetting) {} ∅
          unevenGroups Sweep.unit 3 0 () = (some (.ok run), s, t) ∧
        run.accumulators[0]? = some a ∧ ∀ b ∈ run.accumulators, twoShotsPerSetting b = .ok 0 := by
  obtain ⟨v₀, v₁, v₂, a, hhist, ha, hf⟩ : ∃ v₀ v₁ v₂ a,
      measureHistory alternatingSampler (Criterion.ofFunction twoShotsPerSetting) {} ∅ unevenGroups
        Sweep.unit 3 0 () = [v₀] ++ v₁ :: [v₂] ∧
      v₁.session.accumulators[0]? = some a ∧ twoShotsPerSetting a = .ok 0 :=
    ⟨_, _, _, _, rfl, rfl, rfl⟩
  obtain ⟨run, s, t, hrun⟩ : ∃ run s t,
      measure alternatingSampler (Criterion.ofFunction twoShotsPerSetting) {} ∅ unevenGroups
        Sweep.unit 3 0 () = (some (.ok run), s, t) := ⟨_, _, _, rfl⟩
  obtain ⟨hfinal, hall⟩ := converged_accumulators_are_final alternatingSampler twoShotsPerSetting
    {} ∅ unevenGroups Sweep.unit 3 0 ()
  obtain ⟨hlater, hresult⟩ := hfinal [v₀] v₁ [v₂] hhist 0 a ha hf
  exact ⟨v₀, v₁, v₂, a, hhist, ha, hf, (hlater v₂ (by simp)).1, run, s, t, hrun,
    hresult run s t hrun, hall run s t hrun⟩

end PauliEstimation
