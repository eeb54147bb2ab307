import PauliEstimation.Measurement.Session
import PauliEstimation.Proofs.Measurement.Padding

namespace PauliEstimation

variable {R : Type} [Scalar R]

/-- A group whose settings can all be read from the shots of its padded max setting. -/
structure SettingGroup.Fits (qubits : List Qubit) (g : SettingGroup R) : Prop where
  unscaled : (g.max.observable.coefficient == 1) = true
  compatible : ∀ s ∈ g.settings, s.IsCompatibleWith (BasisChange.padded g.max qubits)

/-- What is reported of a group that does not fit: its coefficient if that is not one, otherwise the
first of its settings that is not covered. -/
inductive SettingGroup.Rejected (qubits : List Qubit) (g : SettingGroup R) :
    MeasurementError R → Prop where
  | scaled (h : (g.max.observable.coefficient == 1) = false) :
      Rejected qubits g (.unscaledPadding g.max.observable.coefficient)
  | incompatible {before after : List (Setting R)} {s : Setting R}
      (h : (g.max.observable.coefficient == 1) = true) (hs : g.settings = before ++ s :: after)
      (hb : ∀ r ∈ before, r.IsCompatibleWith (BasisChange.padded g.max qubits))
      (hi : ¬ s.IsCompatibleWith (BasisChange.padded g.max qubits)) :
      Rejected qubits g (.incompatibleSetting s g.max)

namespace Job

variable {qubits : List Qubit} {g : SettingGroup R}

theorem padGroup?_of_fits (h : g.Fits qubits) :
    padGroup? qubits g = .ok (BasisChange.padded g.max qubits) := by
  refine bind_eq_ok_iff.mpr ⟨_, BasisChange.pad?_eq_padded qubits h.unscaled, ?_⟩
  have hnone : g.settings.find? (fun s =>
      !decide (s.IsCompatibleWith (BasisChange.padded g.max qubits))) = none := by
    apply List.find?_eq_none.mpr
    intro s hs
    simpa using h.compatible s hs
  rw [hnone]
  rfl

theorem padGroup?_of_not_fits (h : ¬ g.Fits qubits) :
    ∃ e, padGroup? qubits g = .error e ∧ g.Rejected qubits e := by
  cases hc : g.max.observable.coefficient == 1 with
  | false =>
    exact ⟨_, bind_of_error (BasisChange.pad?_eq_error qubits hc), .scaled hc⟩
  | true =>
    unfold padGroup?
    rw [BasisChange.pad?_eq_padded qubits hc]
    simp only [bind, Except.bind]
    cases hf : g.settings.find? fun s =>
        !decide (s.IsCompatibleWith (BasisChange.padded g.max qubits)) with
    | none =>
      refine absurd ⟨hc, fun s hs => ?_⟩ h
      simpa using List.find?_eq_none.mp hf s hs
    | some s =>
      obtain ⟨hi, before, after, hs, hb⟩ := List.find?_eq_some_iff_append.mp hf
      refine ⟨_, rfl, .incompatible hc hs (fun r hr => ?_) ?_⟩
      · simpa using hb r hr
      · simpa using hi

theorem groupAccumulators?_of_fits (sweep : Sweep R) (h : g.Fits qubits) :
    groupAccumulators? qubits sweep g = .ok (sweep.points.map fun b =>
      Accumulator.empty ⟨BasisChange.padded g.max qubits, b⟩ g.settings (columnsOf qubits)) :=
  bind_eq_ok_iff.mpr ⟨_, padGroup?_of_fits h, rfl⟩

theorem groupAccumulators?_of_not_fits (sweep : Sweep R) (h : ¬ g.Fits qubits) :
    ∃ e, groupAccumulators? qubits sweep g = .error e ∧ g.Rejected qubits e := by
  obtain ⟨e, he, hr⟩ := padGroup?_of_not_fits h
  exact ⟨e, bind_of_error he, hr⟩

variable {c : Circuit R} {groups : List (SettingGroup R)} {sweep : Sweep R}

theorem start?_of_fits (c : Circuit R) (sweep : Sweep R)
    (h : ∀ g ∈ groups, g.Fits (qubitsOf groups)) :
    ∃ job session, start? c groups sweep = .ok (job, session) := by
  obtain ⟨blocks, hblocks⟩ := exists_mapM fun g hg =>
    ⟨_, groupAccumulators?_of_fits sweep (h g hg)⟩
  exact ⟨_, _, bind_eq_ok_iff.mpr ⟨blocks, hblocks, rfl⟩⟩

theorem start?_of_first_misfit {before after : List (SettingGroup R)} (c : Circuit R)
    (sweep : Sweep R) (hg : groups = before ++ g :: after)
    (hb : ∀ g' ∈ before, g'.Fits (qubitsOf groups)) (h : ¬ g.Fits (qubitsOf groups)) :
    ∃ e, start? c groups sweep = .error e ∧ g.Rejected (qubitsOf groups) e := by
  obtain ⟨e, he, hr⟩ := groupAccumulators?_of_not_fits sweep h
  have herror : groups.mapM (groupAccumulators? (qubitsOf groups) sweep) = .error e := by
    rw [hg] at hb he ⊢
    exact mapM_eq_error (fun g' hg' => ⟨_, groupAccumulators?_of_fits sweep (hb g' hg')⟩) he
  exact ⟨e, bind_of_error herror, hr⟩

theorem fits_of_start? {job : Job R} {session : Session R}
    (h : start? c groups sweep = .ok (job, session)) : ∀ g ∈ groups, g.Fits (qubitsOf groups) := by
  obtain ⟨blocks, hb, _⟩ := bind_eq_ok_iff.mp h
  intro g hg
  obtain ⟨block, _, hblock⟩ := forall₂_exists_of_mem (mapM_eq_ok_iff.mp hb).flip hg
  by_contra hmisfit
  obtain ⟨e, he, _⟩ := groupAccumulators?_of_not_fits sweep hmisfit
  cases hblock.symm.trans he

end Job

end PauliEstimation
