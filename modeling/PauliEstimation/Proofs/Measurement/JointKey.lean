import PauliEstimation.Proofs.Measurement.JointReadout
import PauliEstimation.Svd.Reduction

namespace PauliEstimation

variable {R : Type}

/-- Measurements that are put last are found unless the key was taken before. -/
theorem Circuit.measurement?_of_append {c d : Circuit R} {key : String} {qubits : List Qubit}
    (h : d.measurements = c.measurements ++ [(key, qubits)]) (name : String) :
    d.measurement? name = match c.measurement? name with
      | .ok found => .ok found
      | .error fault => if name = key then .ok qubits else .error fault := by
  rw [measurement?, measurement?, h, List.find?_append]
  cases c.measurements.find? (·.1 = name) with
  | some m => rfl
  | none =>
    by_cases hname : name = key
    · simp [hname]
    · simp [hname, Ne.symm hname]

namespace BasisChange

variable (c : Circuit R) (qubits : List Qubit) (needsInitial : Bool)

theorem measurement?_template_eq_iff :
    (template c qubits needsInitial).measurement? key = .ok qubits ↔
      ∀ found, c.measurement? key = .ok found → found = qubits := by
  rw [Circuit.measurement?_of_append (measurements_template c qubits needsInitial)]
  cases c.measurement? key with
  | ok found => simp
  | error fault => simp

theorem measurement?_template_of_ne {name : String} (h : name ≠ key) :
    (template c qubits needsInitial).measurement? name = c.measurement? name := by
  rw [Circuit.measurement?_of_append (measurements_template c qubits needsInitial)]
  cases c.measurement? name with
  | ok found => rfl
  | error fault => exact if_neg h

end BasisChange

/-- A simulated point of the template holds the listed qubits under the joint key, whatever the
circuit inside measures. Looking the joint key up gives these qubits exactly when the circuit inside
does not measure others under it first. Every other key is looked up in the circuit inside. -/
theorem joint_key_reads_qubits (c : Circuit R) (qubits : List Qubit) (needsInitial : Bool) :
    ((BasisChange.template c qubits needsInitial).measurement? BasisChange.key = .ok qubits ↔
      ∀ found, c.measurement? BasisChange.key = .ok found → found = qubits) ∧
    (∀ name, name ≠ BasisChange.key →
      (BasisChange.template c qubits needsInitial).measurement? name = c.measurement? name) ∧
    ∀ [Scalar R] [ThinSvd R] (m : MpsSampler R) (trajectories : Nat) (b : Bindings R)
      (repetitions : Nat) (s : RandomStream) (result : PointResult R),
      let program := BasisChange.template c qubits needsInitial
      (m.withTrajectories trajectories).point? program b repetitions s = .ok result →
      ∃ bits, result.measurements.get? BasisChange.key = some bits ∧ bits.width = qubits.length ∧
        (qubits ≠ [] → ∃ indices : List Nat, indices.length = repetitions ∧
          List.Forall₂ (List.Forall₂ m.readout.Reports)
            (indices.map fun index => qubits.map (Register.bitAt program.qubits index))
            bits.rows) := by
  refine ⟨BasisChange.measurement?_template_eq_iff c qubits needsInitial,
    fun _ => BasisChange.measurement?_template_of_ne c qubits needsInitial, ?_⟩
  intro _ _ m trajectories b repetitions s result program h
  obtain ⟨_, indices, hlen, hlast⟩ := MpsSampler.point?_reads_last (Nat.le_max_left ..) h
  obtain ⟨bits, hbits, hwidth, hrows⟩ := hlast c.measurements BasisChange.key qubits []
    (BasisChange.measurements_template c qubits needsInitial) List.not_mem_nil
  exact ⟨bits, hbits, hwidth, fun hne => ⟨indices, hlen, (hrows hne).1⟩⟩

/-- A circuit with a measurement of its own and one that agrees with the joint measurement. -/
theorem joint_key_reads_qubits_agreeing :
    let _ : ThinSvd ℝ := ⟨diagonalFactors⟩
    let qubits : List Qubit := [⟨0⟩, ⟨1⟩]
    let c : Circuit ℝ := ⟨[[.hadamard ⟨1⟩],
      [.measure [⟨1⟩] "m", .measure qubits BasisChange.key]]⟩
    let program := BasisChange.template c qubits false
    let m : MpsSampler ℝ := MpsSampler.ofSeed "seed"
    let b : Bindings ℝ := Bindings.ofList
      [("q(0)-Xf", 0), ("q(0)-Yf", 0), ("q(1)-Xf", 1), ("q(1)-Yf", 0)]
    program.measurement? BasisChange.key = .ok qubits ∧ program.measurement? "m" = .ok [⟨1⟩] ∧
      ∃ result bits, (m.withTrajectories 1).point? program b 5 (m.callStream 0) = .ok result ∧
        result.measurements.get? BasisChange.key = some bits ∧ bits.width = 2 ∧
        bits.rowCount = 5 := by
  intro _ qubits c program m b
  obtain ⟨hlookup, hother, hread⟩ := joint_key_reads_qubits c qubits false
  let resolved : Circuit ℝ := ⟨[[.hadamard ⟨1⟩],
    [.measure [⟨1⟩] "m", .measure qubits BasisChange.key],
    [.power .x ⟨0⟩ (.value 0), .power .x ⟨1⟩ (.value 1)],
    [.power .y ⟨0⟩ (.value 0), .power .y ⟨1⟩ (.value 0)], [.measure qubits BasisChange.key]]⟩
  have hresolved : program.resolve b = .ok resolved := rfl
  have hlabels : resolved.qubits = [⟨0⟩, ⟨1⟩] := rfl
  have hruns : resolved.Runs := by
    refine ⟨?_, hlabels ▸ (by decide : 2 ≤ Mps.maxDenseSites)⟩
    rw [hlabels]
    simp [resolved, qubits, Circuit.operations, Operation.Applies, Exponent.value?]
  obtain ⟨result, hresult⟩ : ∃ result,
      (m.withTrajectories 1).point? program b 5 (m.callStream 0) = .ok result :=
    MpsSampler.exists_point? (Nat.le_max_left ..) hresolved hruns
  obtain ⟨bits, hbits, hwidth, hrows⟩ := hread m 1 b 5 (m.callStream 0) result hresult
  obtain ⟨indices, hlen, hreports⟩ := hrows (by decide)
  refine ⟨hlookup.mpr ?_, (hother "m" (by decide)).trans rfl, result, bits, hresult, hbits, hwidth,
    ?_⟩
  · intro found hfound
    exact (Except.ok.inj hfound).symm
  · rw [BitMatrix.rowCount, ← hreports.length_eq, List.length_map, hlen]

/-- A circuit that already measures one of two qubits under the joint key: the lookup finds that
qubit, while the matrix of a simulated shot has two columns. -/
theorem joint_key_taken :
    let c : Circuit Float := ⟨[[.measure [⟨0⟩] BasisChange.key]]⟩
    let qubits : List Qubit := [⟨0⟩, ⟨1⟩]
    let program := BasisChange.template c qubits false
    let m : MpsSampler Float := MpsSampler.ofSeed "seed"
    let b : Bindings Float := Bindings.ofList
      [("q(0)-Xf", 0), ("q(0)-Yf", 0), ("q(1)-Xf", 0), ("q(1)-Yf", 0)]
    program.measurement? BasisChange.key = .ok [⟨0⟩] ∧
      program.measurement? BasisChange.key ≠ .ok qubits ∧
      ((m.point? program b 1 (m.callStream 0)).toOption.bind fun result =>
        result.measurements.get? BasisChange.key).map BitMatrix.width = some 2 := by
  have hfound : (BasisChange.template ⟨[[.measure [⟨0⟩] BasisChange.key]]⟩ [⟨0⟩, ⟨1⟩] false :
      Circuit Float).measurement? BasisChange.key = .ok [⟨0⟩] := rfl
  refine ⟨hfound, ?_, by decide +kernel⟩
  rw [hfound]
  nofun

end PauliEstimation
