import PauliEstimation.Measurement.MpsSampler
import PauliEstimation.Proofs.Measurement.JointReadout
import PauliEstimation.Proofs.Register.Weight
import PauliEstimation.Svd.Reduction

namespace PauliEstimation

variable {R : Type}

namespace Operation

def isGate (op : Operation R) : Bool := op.measurement?.isNone

theorem isGate_of_gate? [Scalar R] {op : Operation R} {e : Qubit × Gate R 2}
    (h : op.gate? = some e) : op.isGate ∧ op.symbol? = none ∧ op.qubits = [e.1] := by
  unfold gate? at h
  split at h
  next =>
    cases h
    exact ⟨rfl, rfl, rfl⟩
  next =>
    cases h
    exact ⟨rfl, rfl, rfl⟩
  next => cases h

end Operation

namespace Circuit

/-- The operations of a circuit that are no measurements. -/
def gates (c : Circuit R) : List (Operation R) := c.operations.filter Operation.isGate

/-- A circuit whose measurements wait for further gates. -/
def measuredAfter (c : Circuit R) (gates : List (Operation R)) : Circuit R :=
  ⟨[c.gates, gates, c.operations.filter (!·.isGate)]⟩

theorem operations_measuredAfter (c : Circuit R) (gates : List (Operation R)) :
    (c.measuredAfter gates).operations =
      c.gates ++ (gates ++ c.operations.filter (!·.isGate)) := by
  simp [measuredAfter, operations]

theorem operations_append_gates (c : Circuit R) (gates : List (Operation R)) :
    (c ++ ⟨[gates]⟩ : Circuit R).operations = c.operations ++ gates := by
  rw [operations_append]
  simp [operations]

section Suffix

variable [Scalar R] {p : Circuit R} {gates : List (Operation R)}

theorem isGate_of_mem (hg : ∀ op ∈ gates, ∃ e, op.gate? = some e) :
    ∀ op ∈ gates, op.isGate := by
  intro op hop
  obtain ⟨e, he⟩ := hg op hop
  exact (Operation.isGate_of_gate? he).1

theorem filter_isGate_eq_self (hg : ∀ op ∈ gates, ∃ e, op.gate? = some e) :
    gates.filter Operation.isGate = gates :=
  List.filter_eq_self.mpr (isGate_of_mem hg)

theorem gates_append (hg : ∀ op ∈ gates, ∃ e, op.gate? = some e) :
    (p ++ ⟨[gates]⟩ : Circuit R).gates = p.gates ++ gates := by
  rw [Circuit.gates, operations_append_gates, List.filter_append, filter_isGate_eq_self hg]
  rfl

theorem gates_measuredAfter (hg : ∀ op ∈ gates, ∃ e, op.gate? = some e) :
    (p.measuredAfter gates).gates = p.gates ++ gates := by
  have hrest : (p.operations.filter (!·.isGate)).filter Operation.isGate = [] := by
    rw [List.filter_filter]
    simp
  rw [Circuit.gates, operations_measuredAfter, List.filter_append, List.filter_append, hrest,
    filter_isGate_eq_self hg, Circuit.gates, List.filter_filter, List.append_nil]
  simp

omit [Scalar R] in
theorem qubits_measuredAfter :
    (p.measuredAfter gates).qubits = (p ++ ⟨[gates]⟩ : Circuit R).qubits := by
  apply Qubit.ascending_perm
  apply List.Perm.flatMap_right
  rw [operations_measuredAfter, operations_append_gates]
  calc
    _ = p.gates ++ (gates ++ p.operations.filter (!·.isGate)) := rfl
    List.Perm _ (p.gates ++ (p.operations.filter (!·.isGate) ++ gates)) :=
      List.perm_append_comm.append_left _
    List.Perm _ (p.operations ++ gates) := by
      rw [← List.append_assoc]
      exact (List.filter_append_perm _ _).append_right _

omit [Scalar R] in
theorem measurements_eq_of_gates {ops : List (Operation R)} (h : ∀ op ∈ ops, op.isGate) :
    ops.filterMap Operation.measurement? = [] := by
  rw [List.filterMap_eq_nil_iff]
  intro op hop
  simpa [Operation.isGate] using h op hop

theorem measurements_append_gates (hg : ∀ op ∈ gates, ∃ e, op.gate? = some e) :
    (p ++ ⟨[gates]⟩ : Circuit R).measurements = p.measurements := by
  rw [measurements, operations_append_gates, List.filterMap_append,
    measurements_eq_of_gates (isGate_of_mem hg), List.append_nil]
  rfl

theorem isParameterized_append_gates (hp : p.isParameterized = false)
    (hg : ∀ op ∈ gates, ∃ e, op.gate? = some e) :
    (p ++ ⟨[gates]⟩ : Circuit R).isParameterized = false := by
  rw [isParameterized, operations_append_gates, List.any_append, Bool.or_eq_false_iff]
  refine ⟨hp, List.any_eq_false.mpr fun op hop => ?_⟩
  obtain ⟨e, he⟩ := hg op hop
  simp [(Operation.isGate_of_gate? he).2.1]

theorem isParameterized_measuredAfter (hp : p.isParameterized = false)
    (hg : ∀ op ∈ gates, ∃ e, op.gate? = some e) :
    (p.measuredAfter gates).isParameterized = false := by
  apply List.any_eq_false.mpr
  intro op hop
  rw [operations_measuredAfter, List.mem_append, List.mem_append] at hop
  rcases hop with hop | hop | hop
  · exact List.any_eq_false.mp hp op (List.mem_filter.mp hop).1
  · obtain ⟨e, he⟩ := hg op hop
    simp [(Operation.isGate_of_gate? he).2.1]
  · exact List.any_eq_false.mp hp op (List.mem_filter.mp hop).1

theorem qubits_append_gates
    (hg : ∀ op ∈ gates, ∃ q ∈ p.qubits, ∃ u, op.gate? = some (q, u)) :
    (p ++ ⟨[gates]⟩ : Circuit R).qubits = p.qubits := by
  refine Qubit.eq_of_ascending (Qubit.pairwise_ascending _) (Qubit.pairwise_ascending _)
    fun q => ?_
  rw [mem_qubits, mem_qubits, operations_append_gates]
  constructor
  · rintro ⟨op, hop, hq⟩
    rcases List.mem_append.mp hop with hop | hop
    · exact ⟨op, hop, hq⟩
    · obtain ⟨q', hq', u, hu⟩ := hg op hop
      rw [(Operation.isGate_of_gate? hu).2.2, List.mem_singleton] at hq
      exact mem_qubits.mp (hq ▸ hq')
  · rintro ⟨op, hop, hq⟩
    exact ⟨op, List.mem_append_left _ hop, hq⟩

theorem measurements_measuredAfter (hg : ∀ op ∈ gates, ∃ e, op.gate? = some e) :
    (p.measuredAfter gates).measurements = p.measurements := by
  have hfirst : ∀ op ∈ p.gates, op.isGate := fun op hop => (List.mem_filter.mp hop).2
  rw [measurements, operations_measuredAfter, List.filterMap_append, List.filterMap_append,
    measurements_eq_of_gates hfirst, measurements_eq_of_gates (isGate_of_mem hg),
    List.filterMap_filter]
  refine List.filterMap_congr fun op _ => ?_
  cases hop : op.measurement? <;> simp [Operation.isGate, hop]

end Suffix

end Circuit

namespace Register

variable [Scalar R] [ThinSvd R]

theorem step?_of_not_isGate {op : Operation R} (r : Register R) (h : op.isGate = false) :
    r.step? op = .ok (r, []) := by
  cases op with
  | measure qs key => rfl
  | power _ _ _ | hadamard _ | cnot _ _ | cz _ _ => cases h

/-- A run only depends on the gates. -/
theorem applyAll_filter_isGate (r : Register R) (ops : List (Operation R)) :
    r.applyAll (ops.filter Operation.isGate) = r.applyAll ops := by
  induction ops generalizing r with
  | nil => rfl
  | cons op ops ih =>
    cases hop : op.isGate with
    | false => rw [List.filter_cons_of_neg (by simp [hop]), ih, applyAll, step?_of_not_isGate r hop]
    | true =>
      rw [List.filter_cons_of_pos hop, applyAll, applyAll]
      cases r.step? op with
      | ok e => exact ih e.1
      | error fault => rfl

/-- Measurements take no kicks either. -/
theorem applyAllNoisy_filter_isGate (p : R) (r : Register R) (s : RandomStream)
    (ops : List (Operation R)) :
    applyAllNoisy p r s (ops.filter Operation.isGate) = applyAllNoisy p r s ops := by
  induction ops generalizing r s with
  | nil => rfl
  | cons op ops ih =>
    cases hop : op.isGate with
    | false =>
      rw [List.filter_cons_of_neg (by simp [hop]), ih, applyAllNoisy, step?_of_not_isGate r hop]
      rfl
    | true =>
      rw [List.filter_cons_of_pos hop, applyAllNoisy, applyAllNoisy]
      cases r.step? op with
      | error fault => rfl
      | ok e =>
        dsimp only
        split
        next r' s' hk => exact ih r' s'
        next => rfl

end Register

namespace MpsSampler

variable [Scalar R] [ThinSvd R] {m : MpsSampler R}

theorem trajectory?_congr {c c' : Circuit R} (hq : c.qubits = c'.qubits) (hg : c.gates = c'.gates)
    (measured : List Qubit) (shots : Nat) (s : RandomStream) :
    m.trajectory? c measured shots s = m.trajectory? c' measured shots s := by
  have hrun : ∀ r : Register R, r.applyCircuitNoisy c m.depolarizing s =
      r.applyCircuitNoisy c' m.depolarizing s := by
    intro r
    rw [Register.applyCircuitNoisy, Register.applyCircuitNoisy,
      ← Register.applyAllNoisy_filter_isGate, ← Register.applyAllNoisy_filter_isGate _ _ _
        c'.operations]
    exact congrArg _ hg
  rw [trajectory?, trajectory?, Register.forCircuit, Register.forCircuit, hq, hrun]

/-- Circuits with the same qubits and the same gates give the same shots. -/
theorem pointBits?_congr {c c' : Circuit R} (hq : c.qubits = c'.qubits) (hg : c.gates = c'.gates)
    (measured : List Qubit) (repetitions : Nat) (s : RandomStream) :
    m.pointBits? c measured repetitions s = m.pointBits? c' measured repetitions s := by
  have hrun : ∀ r : Register R, r.applyCircuit c = r.applyCircuit c' := by
    intro r
    rw [Register.applyCircuit, Register.applyCircuit, ← Register.applyAll_filter_isGate,
      ← Register.applyAll_filter_isGate r c'.operations]
    exact congrArg _ hg
  unfold pointBits? noisyBits?
  simp only [trajectory?_congr hq hg, Register.forCircuit, hq, hrun]

/-- Resolved circuits that are read alike and give the same shots are answered alike. -/
theorem sampler_congr {c c' : Circuit R} (hc : c.isParameterized = false)
    (hc' : c'.isParameterized = false) (hm : c.measurements = c'.measurements) {repetitions : Nat}
    (hbits : ∀ s, m.pointBits? c (c'.measurements.flatMap Prod.snd) repetitions s =
      m.pointBits? c' (c'.measurements.flatMap Prod.snd) repetitions s) (sweep : Sweep R)
    (calls : Nat) :
    m.sampler ⟨c, sweep, repetitions⟩ calls = m.sampler ⟨c', sweep, repetitions⟩ calls := by
  have hpoint : ∀ b s, m.point? c b repetitions s = m.point? c' b repetitions s := by
    intro b s
    rw [point?, point?, Circuit.resolve_eq_self hc, Circuit.resolve_eq_self hc']
    simp only [bind, Except.bind, hm, hbits]
  unfold sampler sweep?
  simp only [hpoint]

end MpsSampler

section Exact

variable [ThinSvd ℝ] {p : Circuit ℝ} {gates : List (Operation ℝ)} {trunc : Truncation ℝ}
  {r : Register ℝ}

omit [ThinSvd ℝ] in
theorem Register.sample?_congr {state : Mps ℝ} (hsize : state.size = r.state.size)
    (htable : Mps.cumulative state.stateVector = Mps.cumulative r.state.stateVector)
    (measured : List Qubit) (shots : Nat) (s : RandomStream) :
    sample? { r with state := state } measured shots s = r.sample? measured shots s := by
  unfold sample? Mps.sample?
  simp only [hsize, htable]
  rfl

theorem Register.wellFormed_of_applyCircuit {stopped : Option Fault}
    (h : (forCircuit p trunc).applyCircuit p = (r, stopped)) :
    r.WellFormed ∧ r.qubits = p.qubits := by
  have hrun := (wellFormed_ofQubits p.qubits trunc).applyAll p.operations
  have hqubits : Qubit.ascending p.qubits = p.qubits :=
    Qubit.ascending_of_pairwise (Qubit.pairwise_ascending _)
  rw [show (ofQubits p.qubits trunc).applyAll p.operations = (r, stopped) from h] at hrun
  exact ⟨hrun.1, hrun.2.trans hqubits⟩

/-- Shots do not see phases after the measurements. -/
theorem MpsSampler.pointBits?_append_phases {m : MpsSampler ℝ} (hm : ¬0 < m.depolarizing)
    (hg : ∀ op ∈ gates, ∃ q ∈ p.qubits, ∃ t, op = .power .z q (.value t)) (measured : List Qubit)
    (repetitions : Nat) (s : RandomStream) :
    m.pointBits? (p ++ ⟨[gates]⟩) measured repetitions s =
      m.pointBits? p measured repetitions s := by
  rw [pointBits?, pointBits?, if_neg hm, if_neg hm, Register.forCircuit, Register.forCircuit,
    Circuit.qubits_append_gates fun op hop => Operation.gate_of_phase (hg op hop),
    Register.applyCircuit, Register.applyCircuit, Circuit.operations_append_gates,
    Register.applyAll_append]
  cases hrun : (Register.ofQubits p.qubits m.trunc).applyAll p.operations with
  | mk r stopped =>
    cases stopped with
    | some fault => rfl
    | none =>
      obtain ⟨hr, hqubits⟩ := Register.wellFormed_of_applyCircuit hrun
      obtain ⟨state, happly, hsize, htable⟩ :=
        Register.exists_applyAll_phases hr (hqubits.symm ▸ hg)
      simp only [happly]
      exact Register.sample?_congr hsize htable measured repetitions s

theorem Register.exists_applyCircuit_append
    (hrun : (forCircuit p trunc).applyCircuit p = (r, none))
    (hg : ∀ op ∈ gates, ∃ q ∈ p.qubits, q ∉ p.measurements.flatMap Prod.snd ∧
      ∃ u, op.gate? = some (q, u)) :
    ∃ state, (forCircuit (p ++ ⟨[gates]⟩) trunc).applyCircuit (p ++ ⟨[gates]⟩) =
      ({ r with state := state }, none) ∧
      ∀ row, rowProbability { r with state := state } (p.measurements.flatMap Prod.snd) row =
        r.rowProbability (p.measurements.flatMap Prod.snd) row := by
  have hgate : ∀ op ∈ gates, ∃ q ∈ p.qubits, ∃ u, op.gate? = some (q, u) := by
    intro op hop
    obtain ⟨q, hq, _, hu⟩ := hg op hop
    exact ⟨q, hq, hu⟩
  obtain ⟨hr, hqubits⟩ := wellFormed_of_applyCircuit hrun
  have hm : ∀ q ∈ p.measurements.flatMap Prod.snd, q ∈ r.qubits :=
    fun q hq => hqubits ▸ Circuit.mem_qubits_of_measured hq
  obtain ⟨state, happly, hrow⟩ := exists_applyAll_elsewhere hr hm (hqubits.symm ▸ hg)
  refine ⟨state, ?_, hrow⟩
  rw [applyCircuit, forCircuit] at hrun
  rw [forCircuit, Circuit.qubits_append_gates hgate, applyCircuit,
    Circuit.operations_append_gates, applyAll_append, hrun]
  exact happly

end Exact

/-- What the measurements of a resolved circuit report when gates on single qubits follow it. They
report as if they stood after the gates. In exact numbers and without depolarizing, phases leave
every answer as it is, and gates on qubits that are not measured leave the law of the rows as it
is. -/
theorem measurements_read_final_state :
    (∀ (R : Type) [Scalar R] [ThinSvd R] (m : MpsSampler R) (p : Circuit R)
      (gates : List (Operation R)) (sweep : Sweep R) (repetitions calls : Nat),
      p.isParameterized = false →
      (∀ op ∈ gates, ∃ q ∈ p.qubits, ∃ u, op.gate? = some (q, u)) →
      m.sampler ⟨p ++ ⟨[gates]⟩, sweep, repetitions⟩ calls =
        m.sampler ⟨p.measuredAfter gates, sweep, repetitions⟩ calls) ∧
    (∀ [ThinSvd ℝ] (m : MpsSampler ℝ) (p : Circuit ℝ) (gates : List (Operation ℝ))
      (sweep : Sweep ℝ) (repetitions calls : Nat), p.isParameterized = false →
      ¬0 < m.depolarizing →
      (∀ op ∈ gates, ∃ q ∈ p.qubits, ∃ t, op = .power .z q (.value t)) →
      m.sampler ⟨p ++ ⟨[gates]⟩, sweep, repetitions⟩ calls =
        m.sampler ⟨p, sweep, repetitions⟩ calls) ∧
    ∀ [ThinSvd ℝ] (trunc : Truncation ℝ) (p : Circuit ℝ) (gates : List (Operation ℝ))
      (r : Register ℝ), (Register.forCircuit p trunc).applyCircuit p = (r, none) →
      (∀ op ∈ gates, ∃ q ∈ p.qubits, q ∉ p.measurements.flatMap Prod.snd ∧
        ∃ u, op.gate? = some (q, u)) →
      ∃ state, (Register.forCircuit (p ++ ⟨[gates]⟩) trunc).applyCircuit (p ++ ⟨[gates]⟩) =
        ({ r with state := state }, none) ∧
        ∀ row, Register.rowProbability { r with state := state }
            (p.measurements.flatMap Prod.snd) row =
          r.rowProbability (p.measurements.flatMap Prod.snd) row := by
  refine ⟨?_, ?_, fun trunc p gates r => Register.exists_applyCircuit_append⟩
  · intro R _ _ m p gates sweep repetitions calls hp hg
    have hgate : ∀ op ∈ gates, ∃ e, op.gate? = some e := fun op hop =>
      have ⟨_, _, _, hu⟩ := hg op hop
      ⟨_, hu⟩
    exact MpsSampler.sampler_congr (Circuit.isParameterized_append_gates hp hgate)
      (Circuit.isParameterized_measuredAfter hp hgate)
      ((Circuit.measurements_append_gates hgate).trans
        (Circuit.measurements_measuredAfter hgate).symm)
      (MpsSampler.pointBits?_congr Circuit.qubits_measuredAfter.symm
        ((Circuit.gates_append hgate).trans (Circuit.gates_measuredAfter hgate).symm) _ _) _ _
  · intro _ m p gates sweep repetitions calls hp hm hg
    have hgate : ∀ op ∈ gates, ∃ e, op.gate? = some e := fun op hop =>
      have ⟨_, _, _, hu⟩ := Operation.gate_of_phase (hg op hop)
      ⟨_, hu⟩
    exact MpsSampler.sampler_congr (Circuit.isParameterized_append_gates hp hgate) hp
      (Circuit.measurements_append_gates hgate)
      (MpsSampler.pointBits?_append_phases hm hg _ _) _ _

/-- The rows that an answer holds under a key, point by point. -/
def rowsUnder {σ : Type} (key : String) (answer : Except String (List (PointResult R)) × σ) :
    Option (List (Option (List (List Bool)))) :=
  answer.1.toOption.map fun results =>
    results.map fun result => (result.measurements.get? key).map BitMatrix.rows

set_option maxRecDepth 100000 in
/-- Two shots of `|0⟩` show zeros, but ones when a gate stands after the measurement. -/
theorem measurement_sees_later_gate :
    let m : MpsSampler Float := MpsSampler.ofSeed "seed"
    let p : Circuit Float := ⟨[[.measure [⟨0⟩] "m"]]⟩
    let gates : List (Operation Float) := [.hadamard ⟨0⟩]
    p.isParameterized = false ∧ ¬0 < m.depolarizing ∧ m.readout.IsNoiseless ∧
      rowsUnder "m" (m.sampler ⟨p, Sweep.unit, 2⟩ 0) = some [some [[false], [false]]] ∧
      rowsUnder "m" (m.sampler ⟨p ++ ⟨[gates]⟩, Sweep.unit, 2⟩ 0) =
        some [some [[true], [true]]] := by
  decide +kernel

/-- A pair of qubits of which one is measured: a gate on the measured one, a phase on it, and a gate
on the other. -/
theorem measurements_read_final_state_pair :
    let _ : ThinSvd ℝ := ⟨fun block => ⟨block, [], block⟩⟩
    let m : MpsSampler ℝ := MpsSampler.ofSeed "seed"
    let p : Circuit ℝ := ⟨[[.hadamard ⟨1⟩], [.measure [⟨0⟩] "m"]]⟩
    m.sampler ⟨p ++ ⟨[[.hadamard ⟨0⟩]]⟩, Sweep.unit, 3⟩ 0 =
        m.sampler ⟨⟨[[.hadamard ⟨1⟩], [.hadamard ⟨0⟩], [.measure [⟨0⟩] "m"]]⟩, Sweep.unit, 3⟩ 0 ∧
      m.sampler ⟨p ++ ⟨[[.power .z ⟨0⟩ (.value (1 / 4))]]⟩, Sweep.unit, 3⟩ 0 =
        m.sampler ⟨p, Sweep.unit, 3⟩ 0 ∧
      ∃ r r' : Register ℝ, (Register.forCircuit p Truncation.exact).applyCircuit p = (r, none) ∧
        (Register.forCircuit p Truncation.exact).applyCircuit (p ++ ⟨[[.hadamard ⟨1⟩]]⟩) =
          (r', none) ∧
        ∀ row, r'.rowProbability [⟨0⟩] row = r.rowProbability [⟨0⟩] row := by
  intro _ m p
  obtain ⟨hafter, hphase, helsewhere⟩ := measurements_read_final_state
  have hq₀ : (⟨0⟩ : Qubit) ∈ p.qubits := by decide
  have hq₁ : (⟨1⟩ : Qubit) ∈ p.qubits := by decide
  have hp : p.isParameterized = false := rfl
  obtain ⟨r, hrun⟩ :
      ∃ r, (Register.forCircuit p Truncation.exact).applyCircuit p = (r, none) := ⟨_, rfl⟩
  obtain ⟨state, hrun', hrow⟩ := helsewhere Truncation.exact p [.hadamard ⟨1⟩] r hrun
    (List.forall_mem_singleton.mpr ⟨⟨1⟩, hq₁, by decide, _, rfl⟩)
  exact ⟨hafter ℝ m p [.hadamard ⟨0⟩] Sweep.unit 3 0 hp
      (List.forall_mem_singleton.mpr ⟨⟨0⟩, hq₀, _, rfl⟩),
    hphase m p [.power .z ⟨0⟩ (.value (1 / 4))] Sweep.unit 3 0 hp (lt_irrefl (0 : ℝ))
      (List.forall_mem_singleton.mpr ⟨⟨0⟩, hq₀, _, rfl⟩),
    r, _, hrun, hrun', hrow⟩

end PauliEstimation
