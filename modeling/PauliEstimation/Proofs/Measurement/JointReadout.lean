import PauliEstimation.Measurement.MpsSampler
import PauliEstimation.Proofs.BasisChange.Resolution
import PauliEstimation.Proofs.Measurement.BatchSizes
import PauliEstimation.Proofs.Register.Shots
import PauliEstimation.Proofs.Register.Simulation

namespace PauliEstimation

variable {R : Type}

theorem Circuit.mem_qubits_of_measured {c : Circuit R} {q : Qubit}
    (h : q ∈ c.measurements.flatMap Prod.snd) : q ∈ c.qubits := by
  obtain ⟨⟨key, qubits⟩, he, hq⟩ := List.mem_flatMap.mp h
  obtain ⟨op, hop, hm⟩ := List.mem_filterMap.mp he
  refine mem_qubits.mpr ⟨op, hop, ?_⟩
  cases op with
  | measure qs name =>
    cases hm
    exact hq
  | power _ _ _ | hadamard _ | cnot _ _ | cz _ _ => cases hm

/-- The operations apply to the circuit's own qubits, which are few enough to be sampled. -/
structure Circuit.Runs (c : Circuit R) : Prop where
  applies : ∀ op ∈ c.operations, op.Applies c.qubits
  size_le : c.qubits.length ≤ Mps.maxDenseSites

namespace ReadoutError

variable [Scalar R]

/-- A bit is reported as it is, unless its error has a probability above zero. -/
def Reports (e : ReadoutError R) (bit reported : Bool) : Prop :=
  reported = bit ∨ 0 < e.errorProbability bit

theorem reports_run_reportBit (e : ReadoutError R) (bit : Bool) (s : RandomStream) :
    e.Reports bit ((e.reportBit streamCoin bit).run s).1 := by
  by_cases hp : 0 < e.errorProbability bit
  · exact .inr hp
  · have hcoin : s.chance (e.errorProbability bit) context = (false, s) := if_neg hp
    have hrun : ((e.reportBit streamCoin bit).run s).1 =
        (bit != (s.chance (e.errorProbability bit) context).1) := rfl
    left
    rw [hrun, hcoin, Bool.bne_false]

/-- Every bit of a matrix is reported in its place. Without noise the report is the matrix. -/
theorem exists_report? (e : ReadoutError R) (bits : BitMatrix) (s : RandomStream) :
    ∃ reported s', e.report? bits s = .ok (reported, s') ∧ reported.width = bits.width ∧
      List.Forall₂ (List.Forall₂ e.Reports) bits.rows reported.rows ∧
      (e.IsNoiseless → reported = bits) := by
  by_cases hnoise : e.IsNoiseless
  · exact ⟨bits, s, if_pos hnoise, rfl,
      List.forall₂_same.mpr fun _ _ => List.forall₂_same.mpr fun _ _ => .inl rfl, fun _ => rfl⟩
  · let rows := ((e.reportRows streamCoin bits.rows).run s).1
    have hrows : List.Forall₂ (List.Forall₂ e.Reports) bits.rows rows :=
      forall₂_run_mapM (fun row => forall₂_run_mapM (reports_run_reportBit e) row) bits.rows s
    have hfit : ∀ row ∈ rows, row.length = bits.width := by
      intro row' hr
      obtain ⟨row, hrow, hbits⟩ := forall₂_exists_of_mem hrows hr
      exact hbits.length_eq.symm.trans (bits.length_of_mem row hrow)
    obtain ⟨reported, hreported⟩ := BitMatrix.exists_ofRows? hfit
    obtain ⟨hwidth, hkept⟩ := BitMatrix.ofRows?_eq_ok hreported
    refine ⟨reported, ((e.reportRows streamCoin bits.rows).run s).2, ?_, hwidth, ?_,
      fun h => absurd h hnoise⟩
    · unfold report?
      rw [if_neg hnoise]
      exact bind_eq_ok_iff.mpr ⟨reported, hreported, rfl⟩
    · rw [hkept, ← bits.kept_rows]
      exact BitMatrix.forall₂_kept bits.width hrows

end ReadoutError

/-- Successive columns from a start on lie within the width. -/
theorem lt_of_mem_columns {start count width : Nat} (h : start + count ≤ width) :
    ∀ c ∈ (List.range count).map (start + ·), c < width := by
  intro c hc
  obtain ⟨k, hk, rfl⟩ := List.mem_map.mp hc
  have hlt := List.mem_range.mp hk
  omega

theorem map_getD_range_append {α β : Type} (f : α → β) (d : β) (before xs after : List α) :
    ((List.range xs.length).map (before.length + ·)).map
      (fun c => ((before ++ (xs ++ after)).map f).getD c d) = xs.map f := by
  apply List.ext_getElem (by simp)
  intro k hk hk'
  have hlt : k < xs.length := by simpa using hk'
  simp [List.getElem?_append_right, List.getElem?_append_left, hlt]

theorem BitMatrix.Reads.select {bits part : BitMatrix} {labels before qubits after : List Qubit}
    {indices : List Nat} (h : bits.Reads labels indices (before ++ (qubits ++ after)))
    (hp : bits.selectColumns? ((List.range qubits.length).map (before.length + ·)) = .ok part) :
    part.Reads labels indices qubits := by
  obtain ⟨hwidth, hrows⟩ := selectColumns?_eq_ok hp
  rw [List.length_map, List.length_range] at hwidth hrows
  refine ⟨hwidth, hrows.trans ?_⟩
  by_cases hq : qubits.length = 0
  · rw [hq]
    rfl
  · have hmeasured : (before ++ (qubits ++ after)).length ≠ 0 := by
      rw [List.length_append, List.length_append]
      omega
    rw [h.rows_eq, kept_of_ne_zero hq, kept_of_ne_zero hq, kept_of_ne_zero hmeasured, List.map_map]
    exact List.map_congr_left fun index _ => map_getD_range_append _ _ before qubits after

namespace MpsSampler

/-- When no key is repeated, none of the measurements after one has its key. -/
theorem exists_append_of_mem {measurements : List (String × List Qubit)} {key : String}
    {qubits : List Qubit} (hkeys : (measurements.map Prod.fst).Nodup)
    (h : (key, qubits) ∈ measurements) :
    ∃ before after, measurements = before ++ (key, qubits) :: after ∧ key ∉ after.map Prod.fst := by
  obtain ⟨before, after, rfl⟩ := List.append_of_mem h
  rw [List.map_append] at hkeys
  exact ⟨before, after, rfl, (List.nodup_cons.mp (List.nodup_append.mp hkeys).2.1).1⟩

theorem split?_get?_of_notMem {bits : BitMatrix} {start : Nat}
    {measurements : List (String × List Qubit)} {found out : Bindings BitMatrix} {key : String}
    (h : split? bits start measurements found = .ok out)
    (hkey : key ∉ measurements.map Prod.fst) : out.get? key = found.get? key := by
  induction measurements generalizing start found with
  | nil =>
    cases h
    rfl
  | cons e rest ih =>
    obtain ⟨hne, hrest⟩ := not_or.mp (mt List.mem_cons.mpr hkey)
    obtain ⟨part, _, h⟩ := bind_eq_ok_iff.mp h
    rw [ih h hrest, Bindings.get?_set, if_neg (Ne.symm hne)]

/-- The last measurement under a key gets the columns after those of the measurements before it. -/
theorem split?_get?_of_append {bits : BitMatrix} {start : Nat}
    {before after : List (String × List Qubit)} {key : String} {qubits : List Qubit}
    {found out : Bindings BitMatrix} (hkey : key ∉ after.map Prod.fst)
    (h : split? bits start (before ++ (key, qubits) :: after) found = .ok out) :
    ∃ part, out.get? key = some part ∧ bits.selectColumns? ((List.range qubits.length).map
      (start + (before.flatMap Prod.snd).length + ·)) = .ok part := by
  induction before generalizing start found with
  | nil =>
    obtain ⟨part, hpart, h⟩ := bind_eq_ok_iff.mp h
    refine ⟨part, ?_, hpart⟩
    rw [split?_get?_of_notMem h hkey, Bindings.get?_set, if_pos rfl]
  | cons e before ih =>
    obtain ⟨_, _, h⟩ := bind_eq_ok_iff.mp h
    rw [List.flatMap_cons, List.length_append, ← Nat.add_assoc]
    exact ih h

/-- What the last measurement under a key gets of a report: its own qubits in every shot, bit by
bit. -/
theorem exists_part_of_split? {bits reported : BitMatrix} {labels : List Qubit}
    {indices : List Nat} {before after : List (String × List Qubit)} {out : Bindings BitMatrix}
    {key : String} {qubits : List Qubit} (hkey : key ∉ after.map Prod.fst)
    (hreads : bits.Reads labels indices ((before ++ (key, qubits) :: after).flatMap Prod.snd))
    (h : split? reported 0 (before ++ (key, qubits) :: after) Bindings.empty = .ok out) :
    ∃ part, out.get? key = some part ∧ part.width = qubits.length ∧
      (qubits ≠ [] → ∀ r : Bool → Bool → Prop, (∀ b, r b b) →
        List.Forall₂ (List.Forall₂ r) bits.rows reported.rows → List.Forall₂ (List.Forall₂ r)
          (indices.map fun index => qubits.map (Register.bitAt labels index)) part.rows) := by
  obtain ⟨part, hpart, hselect⟩ := split?_get?_of_append hkey h
  rw [Nat.zero_add] at hselect
  have hreads : bits.Reads labels indices
      (before.flatMap Prod.snd ++ (qubits ++ after.flatMap Prod.snd)) := by
    rwa [List.flatMap_append, List.flatMap_cons] at hreads
  -- the same columns of the shots themselves, which the report is compared to
  obtain ⟨clean, hclean⟩ : ∃ clean, bits.selectColumns? ((List.range qubits.length).map
      ((before.flatMap Prod.snd).length + ·)) = .ok clean := by
    apply BitMatrix.exists_selectColumns?
    apply lt_of_mem_columns
    rw [hreads.width_eq, List.length_append, List.length_append]
    omega
  have hwidth := (BitMatrix.selectColumns?_eq_ok hselect).1
  rw [List.length_map, List.length_range] at hwidth
  refine ⟨part, hpart, hwidth, fun hne r hr hrows => ?_⟩
  have hshots := (hreads.select hclean).rows_eq
  rw [BitMatrix.kept_of_ne_zero (by simpa using hne)] at hshots
  rw [← hshots]
  exact BitMatrix.forall₂_selectColumns? hclean hselect hrows hr

theorem exists_split? {bits : BitMatrix} {start : Nat}
    {measurements : List (String × List Qubit)} {found : Bindings BitMatrix}
    (h : start + (measurements.flatMap Prod.snd).length ≤ bits.width) :
    ∃ out, split? bits start measurements found = .ok out := by
  induction measurements generalizing start found with
  | nil => exact ⟨found, rfl⟩
  | cons e rest ih =>
    rw [List.flatMap_cons, List.length_append, ← Nat.add_assoc] at h
    have hfit : start + e.2.length ≤ bits.width := by omega
    exact exists_bind (BitMatrix.exists_selectColumns? (lt_of_mem_columns hfit)) fun part _ => ih h

theorem sum_trajectoryShots (repetitions trajectories n : Nat) :
    ((List.range n).map (trajectoryShots repetitions trajectories)).sum =
      n * (repetitions / trajectories) + min n (repetitions % trajectories) := by
  induction n with
  | zero => simp
  | succ n ih =>
    rw [List.range_succ, List.map_append, List.sum_append, ih, List.map_singleton,
      List.sum_singleton, trajectoryShots, Nat.succ_mul]
    -- the trajectories before the remainder have a shot more, the others not
    split <;> omega

/-- The trajectories that are run take all shots. -/
theorem sum_trajectoryShots_eq {repetitions trajectories : Nat} (h : 1 ≤ trajectories) :
    ((List.range (min trajectories repetitions)).map
      (trajectoryShots repetitions trajectories)).sum = repetitions := by
  rw [sum_trajectoryShots]
  -- with fewer shots than trajectories all of them are in the remainder
  rcases Nat.lt_or_ge repetitions trajectories with hlt | hle
  · rw [Nat.min_eq_right hlt.le, Nat.div_eq_of_lt hlt, Nat.mod_eq_of_lt hlt]
    simp
  · have hmod := Nat.mod_lt repetitions h
    rw [Nat.min_eq_left hle, Nat.min_eq_right hmod.le]
    exact Nat.div_add_mod _ _

variable [Scalar R] [ThinSvd R] {m : MpsSampler R} {resolved : Circuit R} {measured : List Qubit}
  {repetitions shots : Nat} {s s' : RandomStream} {bits : BitMatrix}

theorem trajectory?_eq_ok (h : m.trajectory? resolved measured shots s = .ok bits) :
    ∃ indices : List Nat, indices.length = shots ∧
      bits.Reads resolved.qubits indices measured := by
  unfold trajectory? at h
  dsimp only at h
  split at h
  next => cases h
  next =>
    obtain ⟨⟨bits', s'⟩, hsample, rfl⟩ := map_eq_ok_iff.mp h
    exact ((Register.isOn_forCircuit resolved m.trunc).applyAllNoisy _ _ _).of_sample? hsample

theorem exists_reads_of_foldlM {step : BitMatrix → Nat → Except Fault BitMatrix}
    (count : Nat → Nat) {labels : List Qubit} {ts indices : List Nat} {acc : BitMatrix}
    (hstep : ∀ acc t next, step acc t = .ok next → ∃ part more, more.length = count t ∧
      part.Reads labels more measured ∧ acc.append? part = .ok next)
    (hacc : acc.Reads labels indices measured) (h : ts.foldlM step acc = .ok bits) :
    ∃ all : List Nat, all.length = indices.length + (ts.map count).sum ∧
      bits.Reads labels all measured := by
  induction ts generalizing acc indices with
  | nil =>
    cases h
    exact ⟨indices, rfl, hacc⟩
  | cons t ts ih =>
    obtain ⟨next, hnext, h⟩ := bind_eq_ok_iff.mp h
    obtain ⟨part, more, hmore, hpart, happend⟩ := hstep acc t next hnext
    obtain ⟨all, hall, hreads⟩ := ih (hacc.append hpart happend) h
    refine ⟨all, ?_, hreads⟩
    rw [hall, List.length_append, hmore, List.map_cons, List.sum_cons, Nat.add_assoc]

theorem noisyBits?_eq_ok (hm : 1 ≤ m.trajectories)
    (h : m.noisyBits? resolved measured repetitions s = .ok bits) :
    ∃ indices : List Nat, indices.length = repetitions ∧
      bits.Reads resolved.qubits indices measured := by
  obtain ⟨all, hall, hreads⟩ := exists_reads_of_foldlM
    (trajectoryShots repetitions m.trajectories) (fun acc t next hnext => by
      obtain ⟨part, hpart, happend⟩ := bind_eq_ok_iff.mp hnext
      obtain ⟨more, hmore, hreads⟩ := trajectory?_eq_ok hpart
      exact ⟨part, more, hmore, hreads, happend⟩)
    (BitMatrix.reads_empty resolved.qubits measured) h
  refine ⟨all, ?_, hreads⟩
  rw [hall, sum_trajectoryShots_eq hm]
  exact Nat.zero_add _

theorem pointBits?_eq_ok (hm : 1 ≤ m.trajectories)
    (h : m.pointBits? resolved measured repetitions s = .ok (bits, s')) :
    ∃ indices : List Nat, indices.length = repetitions ∧
      bits.Reads resolved.qubits indices measured := by
  unfold pointBits? at h
  split at h
  next =>
    obtain ⟨bits', hbits, he⟩ := map_eq_ok_iff.mp h
    cases he
    exact noisyBits?_eq_ok hm hbits
  next =>
    have hrun := (Register.isOn_forCircuit resolved m.trunc).applyAll resolved.operations
    split at h
    next => cases h
    next register happly =>
      rw [← Register.applyCircuit, happly] at hrun
      exact hrun.of_sample? h

/-- What a point holds under a key: the rows of the last measurement under it, all reported from the
same shots. -/
theorem point?_reads_last {program : Circuit R} {b : Bindings R} {result : PointResult R}
    (hm : 1 ≤ m.trajectories) (h : m.point? program b repetitions s = .ok result) :
    result.bindings = b ∧ ∃ indices : List Nat, indices.length = repetitions ∧
      ∀ before key qubits after, program.measurements = before ++ (key, qubits) :: after →
        key ∉ after.map Prod.fst →
        let shots := indices.map fun index => qubits.map (Register.bitAt program.qubits index)
        ∃ part, result.measurements.get? key = some part ∧ part.width = qubits.length ∧
          (qubits ≠ [] → List.Forall₂ (List.Forall₂ m.readout.Reports) shots part.rows ∧
            (m.readout.IsNoiseless → part.rows = shots)) := by
  obtain ⟨resolved, hresolved, h⟩ := bind_eq_ok_iff.mp h
  obtain ⟨⟨bits, s₁⟩, hbits, h⟩ := bind_eq_ok_iff.mp h
  obtain ⟨⟨reported, s₂⟩, hreport, h⟩ := bind_eq_ok_iff.mp h
  obtain ⟨parts, hsplit, h⟩ := bind_eq_ok_iff.mp h
  cases h
  obtain ⟨hlabels, hmeasurements⟩ := Circuit.resolve_keeps hresolved
  rw [hmeasurements] at hbits hsplit
  obtain ⟨indices, hlen, hreads⟩ := pointBits?_eq_ok hm hbits
  obtain ⟨_, _, hreport', _, hreports, hnoise⟩ := m.readout.exists_report? bits s₁
  cases hreport'.symm.trans hreport
  refine ⟨rfl, indices, hlen, fun before key qubits after hprogram hkey => ?_⟩
  rw [hlabels, hprogram] at hreads
  rw [hprogram] at hsplit
  obtain ⟨part, hpart, hwidth, hrows⟩ := exists_part_of_split? hkey hreads hsplit
  refine ⟨part, hpart, hwidth, fun hne => ⟨hrows hne _ (fun _ => .inl rfl) hreports,
    fun hnoiseless => ?_⟩⟩
  have heq := hrows hne Eq (fun _ => rfl)
  rw [hnoise hnoiseless, List.forall₂_eq_eq_eq, List.forall₂_eq_eq_eq] at heq
  exact (heq rfl).symm

/-- What a point holds under the key of each measurement, when no key is repeated. -/
theorem point?_eq_ok {program : Circuit R} {b : Bindings R} {result : PointResult R}
    (hm : 1 ≤ m.trajectories) (hkeys : (program.measurements.map Prod.fst).Nodup)
    (h : m.point? program b repetitions s = .ok result) :
    result.bindings = b ∧ ∃ indices : List Nat, indices.length = repetitions ∧
      ∀ key qubits, (key, qubits) ∈ program.measurements → qubits ≠ [] →
        let shots := indices.map fun index => qubits.map (Register.bitAt program.qubits index)
        ∃ part, result.measurements.get? key = some part ∧ part.width = qubits.length ∧
          List.Forall₂ (List.Forall₂ m.readout.Reports) shots part.rows ∧
          (m.readout.IsNoiseless → part.rows = shots) := by
  obtain ⟨hb, indices, hlen, hlast⟩ := point?_reads_last hm h
  refine ⟨hb, indices, hlen, fun key qubits hmem hne => ?_⟩
  obtain ⟨before, after, hprogram, hkey⟩ := exists_append_of_mem hkeys hmem
  obtain ⟨part, hpart, hwidth, hrows⟩ := hlast before key qubits after hprogram hkey
  exact ⟨part, hpart, hwidth, hrows hne⟩

theorem sweep?_eq_ok {request : SweepRequest R} {calls : Nat} {results : List (PointResult R)}
    (h : m.sweep? calls request = .ok results) :
    List.Forall₂ (fun e result => m.point? request.program e.1 request.repetitions
      ((m.callStream calls).fork (pointLabel e.2)) = .ok result)
      request.sweep.points.zipIdx results :=
  mapM_eq_ok_iff.mp h

theorem exists_trajectory? (hr : resolved.Runs) (hq : ∀ q ∈ measured, q ∈ resolved.qubits) :
    ∃ bits, m.trajectory? resolved measured shots s = .ok bits := by
  have hon := Register.isOn_forCircuit resolved m.trunc
  have hends := hon.applyAllNoisy_ends m.depolarizing s hr.applies
  have hrun := hon.applyAllNoisy m.depolarizing s resolved.operations
  obtain ⟨e, he⟩ := hrun.exists_sample? hq hr.size_le
  unfold trajectory?
  simp only [Register.applyCircuitNoisy, hends]
  exact ⟨e.1, map_eq_ok_iff.mpr ⟨e, he, rfl⟩⟩

theorem exists_noisyBits? (hr : resolved.Runs) (hq : ∀ q ∈ measured, q ∈ resolved.qubits) :
    ∃ bits, m.noisyBits? resolved measured repetitions s = .ok bits := by
  unfold noisyBits?
  refine exists_foldlM (P := fun bits => bits.width = measured.length) rfl fun acc t _ hacc => ?_
  obtain ⟨part, hpart⟩ := exists_trajectory? hr hq
  obtain ⟨_, _, hreads⟩ := trajectory?_eq_ok hpart
  obtain ⟨next, hnext, hwidth, _⟩ :=
    BitMatrix.append?_of_width_eq (hreads.width_eq.trans hacc.symm)
  exact ⟨next, bind_eq_ok_iff.mpr ⟨part, hpart, hnext⟩, hwidth.trans hacc⟩

theorem exists_pointBits? (hr : resolved.Runs) (hq : ∀ q ∈ measured, q ∈ resolved.qubits) :
    ∃ e, m.pointBits? resolved measured repetitions s = .ok e := by
  unfold pointBits?
  split
  next =>
    obtain ⟨bits, hbits⟩ := exists_noisyBits? hr hq
    exact ⟨_, map_eq_ok_iff.mpr ⟨bits, hbits, rfl⟩⟩
  next =>
    obtain ⟨register, happly, hrun⟩ :=
      (Register.isOn_forCircuit resolved m.trunc).exists_applyAll hr.applies
    simp only [Register.applyCircuit, happly]
    exact hrun.exists_sample? hq hr.size_le

theorem exists_point? {program : Circuit R} {b : Bindings R} (hm : 1 ≤ m.trajectories)
    (hresolved : program.resolve b = .ok resolved) (hr : resolved.Runs) :
    ∃ result, m.point? program b repetitions s = .ok result := by
  refine exists_bind ⟨resolved, hresolved⟩ fun _ h => ?_
  cases h.symm.trans hresolved
  refine exists_bind (exists_pointBits? hr fun q => Circuit.mem_qubits_of_measured) fun e he => ?_
  obtain ⟨_, _, hreads⟩ := pointBits?_eq_ok hm he
  obtain ⟨reported, s', hreport, hwidth, _⟩ := m.readout.exists_report? e.1 e.2
  refine exists_bind ⟨_, hreport⟩ fun _ h => ?_
  cases h.symm.trans hreport
  refine exists_bind (exists_split? ?_) fun parts _ => ⟨_, rfl⟩
  rw [hwidth, hreads.width_eq, Nat.zero_add]

theorem exists_sampler {request : SweepRequest R} {calls : Nat} (hm : 1 ≤ m.trajectories)
    (h : ∀ b ∈ request.sweep.points,
      ∃ resolved, request.program.resolve b = .ok resolved ∧ resolved.Runs) :
    ∃ results, (m.sampler request calls).1 = .ok results := by
  obtain ⟨results, hresults⟩ : ∃ results, m.sweep? calls request = .ok results := by
    refine exists_mapM fun e he => ?_
    have hb : e.1 ∈ request.sweep.points := List.fst_mem_of_mem_zipIdx he
    obtain ⟨resolved, hresolved, hr⟩ := h e.1 hb
    exact exists_point? hm hresolved hr
  exact ⟨results, mapError_eq_ok_iff.mpr hresults⟩

end MpsSampler

theorem BasisChange.measurements_template (c : Circuit R) (qubits : List Qubit)
    (needsInitial : Bool) :
    (template c qubits needsInitial).measurements = c.measurements ++ [(key, qubits)] := by
  have hlayer : ∀ slot, (layer slot qubits : Moment R).filterMap Operation.measurement? = [] := by
    intro slot
    simp [layer, Operation.measurement?]
  cases needsInitial <;>
    simp [template, Circuit.measurements, Circuit.operations, hlayer, Operation.measurement?]

/-- The simulated shots fill the requests of a measurement, provided that the circuit leaves the
joint key free and repeats no key. -/
theorem MpsSampler.fillsRequests [Scalar R] [ThinSvd R] (m : MpsSampler R) (trajectories : Nat)
    {c : Circuit R} {qubits : List Qubit} (needsInitial : Bool)
    (hkeys : (c.measurements.map Prod.fst).Nodup)
    (hfree : BasisChange.key ∉ c.measurements.map Prod.fst) (hne : qubits ≠ []) :
    (m.withTrajectories trajectories).sampler.FillsRequests
      (BasisChange.template c qubits needsInitial) := by
  rintro request calls results hprogram h result hr bits hbits -
  have hmeasurements := BasisChange.measurements_template c qubits needsInitial
  rw [← hprogram] at hmeasurements
  have hdistinct : (request.program.measurements.map Prod.fst).Nodup := by
    rw [hmeasurements, List.map_append, List.map_singleton, ← List.concat_eq_append]
    exact List.Nodup.concat hfree hkeys
  obtain ⟨e, _, hp⟩ := forall₂_exists_of_mem (sweep?_eq_ok (mapError_eq_ok_iff.mp h)) hr
  obtain ⟨_, indices, hlen, hparts⟩ := point?_eq_ok (Nat.le_max_left ..) hdistinct hp
  obtain ⟨bits', hbits', _, hreports, _⟩ :=
    hparts BasisChange.key qubits (by simp [hmeasurements]) hne
  obtain rfl : bits = bits' := Option.some.inj (hbits.symm.trans hbits')
  rw [BitMatrix.rowCount, ← hreports.length_eq, List.length_map, hlen]

/-- The sampler gives one result for each point of the sweep, in its order, and under the key of
every measurement one row for each repetition and one column for each measured qubit: row `r` of
every measurement is the report of its qubits in the same shot. Without readout errors a qubit has
the same column wherever it is measured. -/
theorem sampler_reads_joint_shots [Scalar R] [ThinSvd R] (m : MpsSampler R) (trajectories : Nat)
    (request : SweepRequest R) (calls : Nat) (results : List (PointResult R))
    (hkeys : (request.program.measurements.map Prod.fst).Nodup)
    (hqubits : ∀ e ∈ request.program.measurements, e.2 ≠ [])
    (h : ((m.withTrajectories trajectories).sampler request calls).1 = .ok results) :
    results.map PointResult.bindings = request.sweep.points ∧ ∀ result ∈ results,
      (∃ indices : List Nat, indices.length = request.repetitions ∧
        ∀ key qubits, (key, qubits) ∈ request.program.measurements →
          let shots := indices.map fun index =>
            qubits.map (Register.bitAt request.program.qubits index)
          ∃ bits, result.measurements.get? key = some bits ∧
            bits.rowCount = request.repetitions ∧ bits.width = qubits.length ∧
            List.Forall₂ (List.Forall₂ m.readout.Reports) shots bits.rows ∧
            (m.readout.IsNoiseless → bits.rows = shots)) ∧
      (m.readout.IsNoiseless → ∀ (key key' : String) (qubits qubits' : List Qubit)
        (bits bits' : BitMatrix) (i i' : Nat) (q : Qubit),
        (key, qubits) ∈ request.program.measurements → qubits[i]? = some q →
        (key', qubits') ∈ request.program.measurements → qubits'[i']? = some q →
        result.measurements.get? key = some bits → result.measurements.get? key' = some bits' →
        bits.rows.map (·[i]?) = bits'.rows.map (·[i']?)) := by
  have hpoints := MpsSampler.sweep?_eq_ok (mapError_eq_ok_iff.mp h)
  have hm : 1 ≤ (m.withTrajectories trajectories).trajectories := Nat.le_max_left ..
  constructor
  · have hmap := map_eq_map_of_forall₂ hpoints fun _ _ hp =>
      (MpsSampler.point?_eq_ok hm hkeys hp).1.symm
    rw [List.zipIdx_map_fst] at hmap
    exact hmap.symm
  intro result hresult
  obtain ⟨e, _, hp⟩ := forall₂_exists_of_mem hpoints hresult
  obtain ⟨_, indices, hlen, hparts⟩ := MpsSampler.point?_eq_ok hm hkeys hp
  refine ⟨⟨indices, hlen, fun key qubits hmem => ?_⟩, fun hnoiseless => ?_⟩
  · obtain ⟨bits, hbits, hwidth, hreports, hrows⟩ := hparts key qubits hmem (hqubits _ hmem)
    refine ⟨bits, hbits, ?_, hwidth, hreports, hrows⟩
    rw [BitMatrix.rowCount, ← hreports.length_eq, List.length_map, hlen]
  -- the column of a qubit only depends on the shots
  have hcolumn : ∀ (key : String) (qubits : List Qubit) (bits : BitMatrix) (i : Nat) (q : Qubit),
      (key, qubits) ∈ request.program.measurements → qubits[i]? = some q →
      result.measurements.get? key = some bits → bits.rows.map (·[i]?) =
        indices.map fun index => some (Register.bitAt request.program.qubits index q) := by
    intro key qubits bits i q hmem hq hbits
    obtain ⟨bits', hbits', _, _, hrows⟩ := hparts key qubits hmem (hqubits _ hmem)
    obtain rfl : bits = bits' := Option.some.inj (hbits.symm.trans hbits')
    rw [hrows hnoiseless, List.map_map]
    refine List.map_congr_left fun index _ => ?_
    rw [Function.comp_apply, List.getElem?_map, hq]
    rfl
  intro key key' qubits qubits' bits bits' i i' q hmem hq hmem' hq' hbits hbits'
  rw [hcolumn key qubits bits i q hmem hq hbits, hcolumn key' qubits' bits' i' q hmem' hq' hbits']

/-- Ten shots on three noisy trajectories, with one qubit measured under two keys. -/
theorem sampler_reads_joint_shots_uneven :
    let _ : ThinSvd ℝ := ⟨diagonalFactors⟩
    let m : MpsSampler ℝ := { MpsSampler.ofSeed "noisy" with depolarizing := 1 / 10 }
    let request : SweepRequest ℝ := ⟨⟨[[.power .x ⟨0⟩ (.symbol "t")],
      [.measure [⟨0⟩] "a", .measure [⟨1⟩, ⟨0⟩] "b"]]⟩, Sweep.ofValues "t" [0, 1], 10⟩
    ∃ results, ((m.withTrajectories 3).sampler request 0).1 = .ok results ∧
      results.map PointResult.bindings = request.sweep.points ∧ ∀ result ∈ results,
        ∃ a b, result.measurements.get? "a" = some a ∧ result.measurements.get? "b" = some b ∧
          a.rowCount = 10 ∧ b.rowCount = 10 ∧ b.width = 2 ∧
          a.rows.map (·[0]?) = b.rows.map (·[1]?) := by
  intro _ m request
  have hruns : ∀ t : ℝ, Circuit.Runs ⟨[[.power .x ⟨0⟩ (.value t)],
      [.measure [⟨0⟩] "a", .measure [⟨1⟩, ⟨0⟩] "b"]]⟩ := by
    intro t
    have hqubits : (⟨[[.power .x ⟨0⟩ (.value t)], [.measure [⟨0⟩] "a", .measure [⟨1⟩, ⟨0⟩] "b"]]⟩ :
        Circuit ℝ).qubits = [⟨0⟩, ⟨1⟩] := rfl
    refine ⟨?_, hqubits ▸ (by decide : 2 ≤ Mps.maxDenseSites)⟩
    rw [hqubits]
    simp [Circuit.operations, Operation.Applies, Exponent.value?]
  obtain ⟨results, hresults⟩ :
      ∃ results, ((m.withTrajectories 3).sampler request 0).1 = .ok results := by
    refine MpsSampler.exists_sampler (Nat.le_max_left ..) fun b hb => ?_
    obtain ⟨t, _, rfl⟩ := List.mem_map.mp hb
    exact ⟨_, rfl, hruns t⟩
  have hnoiseless : m.readout.IsNoiseless := ⟨le_refl (0 : ℝ), le_refl (0 : ℝ)⟩
  obtain ⟨hpoints, hparts⟩ := sampler_reads_joint_shots m 3 request 0 results (by decide)
    (by decide) hresults
  refine ⟨results, hresults, hpoints, fun result hr => ?_⟩
  obtain ⟨⟨indices, _, hrows⟩, hcolumns⟩ := hparts result hr
  obtain ⟨a, ha, hcount, _⟩ := hrows "a" [⟨0⟩] (by decide)
  obtain ⟨b, hb, hcount', hwidth, _⟩ := hrows "b" [⟨1⟩, ⟨0⟩] (by decide)
  exact ⟨a, b, ha, hb, hcount, hcount', hwidth,
    hcolumns hnoiseless "a" "b" [⟨0⟩] [⟨1⟩, ⟨0⟩] a b 0 1 ⟨0⟩ (by decide) rfl (by decide) rfl ha hb⟩

end PauliEstimation
