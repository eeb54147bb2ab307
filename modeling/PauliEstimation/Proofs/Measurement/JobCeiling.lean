import PauliEstimation.Proofs.Measurement.History

namespace PauliEstimation

variable {R σ κ : Type} [Scalar R]

/-- The throttle counts unsplit specifications and saturates; neither lets a request through that is
larger than the ceiling. -/
theorem call_within_ceiling {sampler : Sampler R σ} {criterion : Criterion R κ}
    {config : MeasurementConfig} {job : Job R} {session : Session R} {s : σ} {t : κ} {call : Call R}
    (hc : config.maxRepetitionsPerJob < maxWord)
    (h : Session.call? sampler criterion config job session s t = some call) :
    call.request.sweep.points ≠ [] ∧ 1 ≤ call.request.repetitions ∧
      call.request.sweep.points.length * call.request.repetitions ≤
        config.maxRepetitionsPerJob := by
  obtain ⟨hn, hp, _, _, _⟩ := Session.call?_eq_some h
  have hs := Session.submits_of_call? h
  exact ⟨hs.points_ne_nil hp, hs.repetitions_pos, Nat.le_trans hs.job_le (Plan.next_job_le hc hn)⟩

theorem requests_within_ceiling (sampler : Sampler R σ) (criterion : Criterion R κ)
    (config : MeasurementConfig) (c : Circuit R) (groups : List (SettingGroup R))
    (sweep : Sweep R) (fuel : Nat) (s : σ) (t : κ)
    (hc : config.maxRepetitionsPerJob < maxWord) :
    ∀ request ∈ (measure sampler.recording criterion config c groups sweep fuel ([], s) t).2.1.1,
      request.sweep.points ≠ [] ∧ 1 ≤ request.repetitions ∧
        request.sweep.points.length * request.repetitions ≤ config.maxRepetitionsPerJob := by
  intro request hr
  rw [measure_recording, List.mem_reverse] at hr
  obtain ⟨call, hcall, rfl⟩ := List.mem_map.mp hr
  obtain ⟨v, hv, hvc⟩ := List.mem_filterMap.mp hcall
  unfold measureHistory at hv
  split at hv
  next => simp at hv
  next job session _ =>
    obtain ⟨_, s, t, hcall⟩ := Session.history_invariant (P := fun _ => True) trivial
      (fun _ _ => trivial) hv
    exact call_within_ceiling hc (hcall.symm.trans hvc)

/-- Two groups with symmetrization, under a ceiling that throttles them. -/
theorem requests_within_ceiling_throttled :
    25 < maxWord ∧ ∃ request,
      (measure alternatingSampler.recording
        (StoppingPolicy.repetitions ⟨100, 100⟩).criterion ⟨25, true, none⟩ ∅
        unevenGroups Sweep.unit 1 ([], 0) ()).2.1.1 = [request] ∧
      request.sweep.points ≠ [] ∧ 1 ≤ request.repetitions ∧
      request.sweep.points.length * request.repetitions ≤ 25 := by
  have hc : 25 < maxWord := by decide
  obtain ⟨request, hr⟩ : ∃ request, (measure alternatingSampler.recording
      (StoppingPolicy.repetitions ⟨100, 100⟩).criterion ⟨25, true, none⟩ ∅
      unevenGroups Sweep.unit 1 ([], 0) ()).2.1.1 = [request] := ⟨_, rfl⟩
  exact ⟨hc, request, hr, requests_within_ceiling alternatingSampler _ ⟨25, true, none⟩ ∅
    unevenGroups Sweep.unit 1 0 () hc request (hr ▸ List.mem_singleton_self request)⟩

end PauliEstimation
