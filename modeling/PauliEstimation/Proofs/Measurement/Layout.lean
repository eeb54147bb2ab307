import PauliEstimation.Proofs.BasisChange.Binding
import PauliEstimation.Proofs.Measurement.Delivery
import PauliEstimation.Proofs.Measurement.History
import PauliEstimation.Proofs.Measurement.Validation
import PauliEstimation.Proofs.QubitMap

namespace PauliEstimation

variable {R σ κ : Type}

/-- Every specification has a factor and a state on every measured qubit. -/
structure Job.Covers (job : Job R) : Prop where
  nodup : job.qubits.Nodup
  observable : ∀ spec ∈ job.specs, ∀ q ∈ job.qubits, q ∈ spec.max.observable.qubits
  initial : ∀ spec ∈ job.specs, ∀ q ∈ job.qubits, q ∈ spec.max.initial.keys

/-- Accumulators stand beside the specifications, with one column for each measured qubit, and what
is pending is among them. -/
structure Session.LaidOut (job : Job R) (session : Session R) : Prop where
  length_eq : session.accumulators.length = job.specs.length
  pending_lt : ∀ k ∈ session.pending, k < session.accumulators.length
  width_eq : ∀ a ∈ session.accumulators, a.bits.width = job.qubits.length

namespace Job

theorem size_columnsOf {qubits : List Qubit} (h : qubits.Nodup) :
    (columnsOf qubits).size = qubits.length := by
  rw [columnsOf, QubitMap.size_ofList (by rwa [List.zipIdx_map_fst]), List.length_zipIdx]

theorem nodup_qubitsOf (groups : List (SettingGroup R)) : (qubitsOf groups).Nodup :=
  Qubit.nodup_of_ascending (Qubit.pairwise_ascending _)

variable [Scalar R] {c : Circuit R} {groups : List (SettingGroup R)} {sweep : Sweep R}
  {job : Job R} {session : Session R}

/-- The accumulators of a measurement that has just started. -/
theorem mem_accumulators_of_start? (h : start? c groups sweep = .ok (job, session)) :
    ∀ a ∈ session.accumulators, ∃ g ∈ groups, ∃ b ∈ sweep.points, a = Accumulator.empty
      ⟨BasisChange.padded g.max (qubitsOf groups), b⟩ g.settings (columnsOf (qubitsOf groups)) := by
  have hfits := fits_of_start? h
  obtain ⟨blocks, hb, _, rfl⟩ := start?_eq_ok h
  intro a ha
  obtain ⟨block, hm, ha⟩ := List.mem_flatten.mp ha
  obtain ⟨g, hg, hblock⟩ := forall₂_exists_of_mem (mapM_eq_ok_iff.mp hb) hm
  rw [groupAccumulators?_of_fits sweep (hfits g hg)] at hblock
  cases hblock
  obtain ⟨b, hb, rfl⟩ := List.mem_map.mp ha
  exact ⟨g, hg, b, hb, rfl⟩

theorem repetitions_of_start? (h : start? c groups sweep = .ok (job, session)) :
    ∀ a ∈ session.accumulators, a.repetitions = 0 := by
  intro a ha
  obtain ⟨g, _, b, _, rfl⟩ := mem_accumulators_of_start? h a ha
  exact congrArg List.length (Accumulator.rows_empty _ _ _)

theorem start?_covers (h : start? c groups sweep = .ok (job, session)) : job.Covers := by
  have hmem := mem_accumulators_of_start? h
  obtain ⟨blocks, _, rfl, rfl⟩ := start?_eq_ok h
  have hspec : ∀ spec ∈ blocks.flatten.map Accumulator.spec, ∃ s,
      spec.max = BasisChange.padded s (qubitsOf groups) := by
    intro spec hs
    obtain ⟨a, ha, rfl⟩ := List.mem_map.mp hs
    obtain ⟨g, _, b, _, rfl⟩ := hmem a ha
    exact ⟨g.max, rfl⟩
  refine ⟨nodup_qubitsOf groups, fun spec hs q hq => ?_, fun spec hs q hq => ?_⟩
  · obtain ⟨s, he⟩ := hspec spec hs
    exact he ▸ (BasisChange.mem_qubits_padded s hq).1
  · obtain ⟨s, he⟩ := hspec spec hs
    exact he ▸ (BasisChange.mem_qubits_padded s hq).2

theorem start?_laidOut (h : start? c groups sweep = .ok (job, session)) : session.LaidOut job := by
  have hmem := mem_accumulators_of_start? h
  obtain ⟨blocks, _, rfl, rfl⟩ := start?_eq_ok h
  refine ⟨List.length_map _ |>.symm, fun k hk => List.mem_range.mp hk, fun a ha => ?_⟩
  obtain ⟨g, _, b, _, rfl⟩ := hmem a ha
  exact size_columnsOf (nodup_qubitsOf groups)

end Job

namespace Variant

theorem exists_ofPending? {specs : List (Spec R)} {pending : List Nat}
    (h : ∀ k ∈ pending, k < specs.length) (qubitCount : Nat) (symmetrize : Bool) :
    ∃ variants, ofPending? specs qubitCount symmetrize pending = .ok variants := by
  refine exists_bind (exists_mapM fun k hk => ?_) fun blocks _ => ⟨_, rfl⟩
  rw [List.getElem?_eq_getElem (h k hk)]
  exact ⟨_, rfl⟩

theorem exists_bindings? [Scalar R] {v : Variant R} {qubits : List Qubit} (hn : qubits.Nodup)
    (hflips : v.flips.length = qubits.length)
    (hobs : ∀ q ∈ qubits, q ∈ v.spec.max.observable.qubits)
    (hinit : ∀ q ∈ qubits, q ∈ v.spec.max.initial.keys) (needsInitial : Bool) :
    ∃ b, v.bindings? qubits needsInitial = .ok b := by
  obtain ⟨b, hb, _⟩ := BasisChange.bindings?_eq_ok hn hflips hobs
    fun (_ : needsInitial = true) => hinit
  exact exists_bind ⟨b, hb⟩ fun _ _ => ⟨_, rfl⟩

end Variant

theorem Accumulator.exists_consume? {a : Accumulator R} {batch : BitMatrix}
    (h : batch.width = a.bits.width) : ∃ b, a.consume? batch = .ok b := by
  obtain ⟨r, hr, _⟩ := BitMatrix.append?_of_width_eq h
  exact exists_bind ⟨r, hr⟩ fun _ _ => ⟨_, rfl⟩

namespace Session

variable [Scalar R] {sampler : Sampler R σ} {criterion : Criterion R κ} {config : MeasurementConfig}
  {job : Job R} {session session' : Session R} {s s' : σ} {t t' : κ}

/-- A plan for laid out specifications is submitted, unless there is no repetition to submit. -/
theorem submission?_of_covers (config : MeasurementConfig) (plan : Plan) (hc : job.Covers)
    (hp : ∀ k ∈ plan.pending, k < job.specs.length) :
    if Variant.share config.symmetrize plan.repetitions = 0 then
      submission? job config plan = .error (.zeroRepetitions plan.repetitions)
    else ∃ variants request, submission? job config plan = .ok (variants, request) := by
  obtain ⟨variants, hv⟩ := Variant.exists_ofPending? hp job.qubits.length config.symmetrize
  have hlift : liftFault (R := R) (Variant.ofPending? job.specs job.qubits.length
      config.symmetrize plan.pending) = .ok variants := liftFault_eq_ok_iff.mpr hv
  unfold submission?
  rw [hlift]
  split
  next h0 => simp [h0, bind, Except.bind, throw, throwThe, MonadExceptOf.throw]
  next h0 =>
    obtain ⟨sweep, hsweep⟩ : ∃ sweep, Variant.sweep? variants job.qubits job.needsInitial =
        .ok sweep := by
      refine exists_bind (exists_mapM fun v hm => ?_) fun _ _ => ⟨_, rfl⟩
      obtain ⟨k, _, spec, flip, hspec, rfl⟩ := Variant.exists_of_mem_ofPending? hv hm
      have hmem := List.mem_of_getElem? hspec
      exact Variant.exists_bindings? hc.nodup List.length_replicate (hc.observable spec hmem)
        (hc.initial spec hmem) job.needsInitial
    refine ⟨variants, ⟨job.program, sweep, Variant.share config.symmetrize plan.repetitions⟩, ?_⟩
    simp [h0, hsweep, bind, Except.bind, pure, Except.pure]

omit [Scalar R] in
theorem exists_deliverOne? {accumulators : List (Accumulator R)} {v : Variant R}
    {result : PointResult R} {bits : BitMatrix} (hv : v.index < accumulators.length)
    (hbits : result.measurements.get? BasisChange.key = some bits)
    (hwidth : v.flips.length = bits.width)
    (hw : ∀ a ∈ accumulators, a.bits.width = v.flips.length) :
    ∃ next, deliverOne? accumulators v result = .ok next := by
  obtain ⟨corrected, hc, hcw, _⟩ := BitMatrix.flipColumns?_of_length_eq hwidth
  have hcol : corrected.width = accumulators[v.index].bits.width := by
    rw [hcw, hw _ (List.getElem_mem hv), hwidth]
  obtain ⟨b, hb⟩ := Accumulator.exists_consume? hcol
  unfold deliverOne?
  rw [hbits]
  simp only [hc, List.getElem?_eq_getElem hv, hb, bind, Except.bind]
  exact ⟨_, rfl⟩

omit [Scalar R] in
/-- What a result lacks when it is not taken in. -/
theorem deliverOne?_eq_error {accumulators : List (Accumulator R)} {v : Variant R}
    {result : PointResult R} {fault : Fault} (hv : v.index < accumulators.length)
    (hw : ∀ a ∈ accumulators, a.bits.width = v.flips.length)
    (h : deliverOne? accumulators v result = .error fault) :
    (result.measurements.get? BasisChange.key = none ∧ fault = .missingKey BasisChange.key) ∨
      ∃ bits, result.measurements.get? BasisChange.key = some bits ∧
        bits.width ≠ v.flips.length ∧ fault = .raggedRow bits.width v.flips.length := by
  cases hbits : result.measurements.get? BasisChange.key with
  | none =>
    simp only [deliverOne?, hbits] at h
    exact Or.inl ⟨rfl, (Except.error.inj h).symm⟩
  | some bits =>
    by_cases hwidth : v.flips.length = bits.width
    · obtain ⟨next, hnext⟩ := exists_deliverOne? hv hbits hwidth hw
      cases hnext.symm.trans h
    · simp only [deliverOne?, hbits, BitMatrix.flipColumns?_of_length_ne hwidth] at h
      exact Or.inr ⟨bits, rfl, Ne.symm hwidth, (Except.error.inj h).symm⟩

omit [Scalar R] in
theorem deliverOne?_widths {accumulators next : List (Accumulator R)} {v : Variant R}
    {result : PointResult R} {width : Nat} (hw : ∀ a ∈ accumulators, a.bits.width = width)
    (h : deliverOne? accumulators v result = .ok next) :
    next.length = accumulators.length ∧ ∀ a ∈ next, a.bits.width = width := by
  obtain ⟨_, a, b, _, _, ha, hext, rfl⟩ := deliverOne?_eq_ok h
  refine ⟨List.length_set, fun d hd => ?_⟩
  rcases List.mem_or_eq_of_mem_set hd with hd | rfl
  · exact hw d hd
  · exact hext.width_eq.trans (hw a (List.mem_of_getElem? ha))

omit [Scalar R] in
theorem deliverAll_keeps_widths {delivered : List (Variant R × PointResult R)}
    {accumulators next : List (Accumulator R)} {width : Nat}
    (hw : ∀ a ∈ accumulators, a.bits.width = width)
    (h : delivered.foldlM (fun as e => deliverOne? as e.1 e.2) accumulators = .ok next) :
    next.length = accumulators.length ∧ ∀ a ∈ next, a.bits.width = width := by
  obtain ⟨hlen, hext⟩ := deliverAll_extends h
  refine ⟨hlen, fun b hb => ?_⟩
  obtain ⟨k, a, ha, hab⟩ := exists_getElem?_of_mem hlen hext hb
  exact hab.width_eq.trans (hw a (List.mem_of_getElem? ha))

omit [Scalar R] in
/-- The first result that is not taken in lacks the joint key or has another width. -/
theorem deliverAll_eq_error {delivered : List (Variant R × PointResult R)}
    {accumulators : List (Accumulator R)} {width : Nat} {fault : Fault}
    (hv : ∀ e ∈ delivered, e.1.index < accumulators.length ∧ e.1.flips.length = width)
    (hw : ∀ a ∈ accumulators, a.bits.width = width)
    (h : delivered.foldlM (fun as e => deliverOne? as e.1 e.2) accumulators = .error fault) :
    ∃ e ∈ delivered, (e.2.measurements.get? BasisChange.key = none ∧
        fault = .missingKey BasisChange.key) ∨
      ∃ bits, e.2.measurements.get? BasisChange.key = some bits ∧
        bits.width ≠ width ∧ fault = .raggedRow bits.width width := by
  induction delivered generalizing accumulators with
  | nil => cases h
  | cons e rest ih =>
    obtain ⟨⟨hindex, hflips⟩, hrest⟩ := List.forall_mem_cons.mp hv
    cases hm : deliverOne? accumulators e.1 e.2 with
    | error fault' =>
      rw [List.foldlM_cons, bind_of_error hm] at h
      obtain rfl : fault' = fault := Except.error.inj h
      exact ⟨e, List.mem_cons_self, hflips ▸ deliverOne?_eq_error hindex (hflips ▸ hw) hm⟩
    | ok middle =>
      obtain ⟨hlen, hmw⟩ := deliverOne?_widths hw hm
      rw [List.foldlM_cons, hm] at h
      obtain ⟨d, hd, hfault⟩ := ih (hlen ▸ hrest) hmw h
      exact ⟨d, List.mem_cons_of_mem _ hd, hfault⟩

/-- A round that goes on keeps the layout. -/
theorem round_keeps_laidOut (hl : session.LaidOut job)
    (h : round sampler criterion config job session s t = (.continued session', s', t')) :
    session'.LaidOut job := by
  obtain ⟨call, results, accumulators, hc, _, hd, rfl⟩ := round_eq_continued h
  obtain ⟨hn, _, _, _, _⟩ := call?_eq_some hc
  obtain ⟨_, hfold⟩ := deliver?_eq_ok hd
  obtain ⟨hlen, hw⟩ := deliverAll_keeps_widths hl.width_eq hfold
  refine ⟨hlen.trans hl.length_eq, fun k hk => ?_, hw⟩
  exact hlen ▸ hl.pending_lt k ((Plan.next_sublist hn).subset hk)

end Session

end PauliEstimation
