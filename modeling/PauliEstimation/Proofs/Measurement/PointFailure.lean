import PauliEstimation.Proofs.Measurement.JointReadout
import PauliEstimation.Proofs.Register.Obstacle

namespace PauliEstimation

variable {R : Type}

theorem Circuit.Obstacle.not_malformed {c : Circuit R} {b : Bindings R} {fault : Fault}
    (h : c.Obstacle b fault) : (∀ q, fault ≠ .unknownQubit q) ∧
      (∀ expected got, fault ≠ .raggedRow expected got) ∧ ∀ q, fault ≠ .overlappingFactor q := by
  cases h <;> exact ⟨nofun, nofun, nofun⟩

theorem Circuit.Clear.runs {c resolved : Circuit R} {b : Bindings R} (h : c.Clear b)
    (hresolved : c.resolve b = .ok resolved) : resolved.Runs := by
  have hqubits := (resolve_keeps hresolved).1
  refine ⟨?_, hqubits ▸ h.size_le⟩
  rw [hqubits]
  exact applies_of_forall₂ (forall₂_operations hresolved) (fun _ hop => hop) h.adjacent

namespace MpsSampler

variable [Scalar R] [ThinSvd R] {m : MpsSampler R} {c resolved : Circuit R} {b : Bindings R}
  {measured labels : List Qubit} {repetitions : Nat} {fault : Fault}

/-- With shots to take, the first trajectory is run, and its failure is that of all. -/
theorem noisyBits?_eq_error (hm : 1 ≤ m.trajectories) (hr : 1 ≤ repetitions)
    (h : ∀ shots s, m.trajectory? resolved measured shots s = .error fault) (s : RandomStream) :
    m.noisyBits? resolved measured repetitions s = .error fault := by
  obtain ⟨n, hn⟩ : ∃ n, min m.trajectories repetitions = n + 1 :=
    Nat.exists_eq_add_one.mpr (Nat.lt_min.mpr ⟨hm, hr⟩)
  rw [noisyBits?, hn, List.range_succ_eq_map, List.foldlM_cons]
  exact bind_of_error (bind_of_error (h _ _))

/-- A circuit that stops with and without noise fails at every point. -/
theorem pointBits?_of_stops (hm : 1 ≤ m.trajectories) (hr : 1 ≤ repetitions)
    (hrun : ((Register.forCircuit resolved m.trunc).applyAll resolved.operations).2 = some fault)
    (hnoisy : ∀ s, (Register.applyAllNoisy m.depolarizing (Register.forCircuit resolved m.trunc) s
      resolved.operations).stopped = some fault) (s : RandomStream) :
    m.pointBits? resolved measured repetitions s = .error fault := by
  have htrajectory : ∀ shots s, m.trajectory? resolved measured shots s = .error fault := by
    intro shots s
    simp only [trajectory?, Register.applyCircuitNoisy, hnoisy]
  unfold pointBits?
  split
  next => exact map_eq_error_iff.mpr (noisyBits?_eq_error hm hr htrajectory s)
  next =>
    rw [← Register.applyCircuit] at hrun
    split
    next register fault' happly =>
      rw [happly] at hrun
      exact congrArg _ (Option.some.inj hrun)
    next register happly =>
      rw [happly] at hrun
      cases hrun

/-- A circuit that ends on too many qubits fails when it is sampled. -/
theorem pointBits?_of_large (hm : 1 ≤ m.trajectories) (hr : 1 ≤ repetitions)
    (happlies : ∀ op ∈ resolved.operations, op.Applies resolved.qubits)
    (hmeasured : ∀ q ∈ measured, q ∈ resolved.qubits)
    (hsize : Mps.maxDenseSites < resolved.qubits.length) (s : RandomStream) :
    m.pointBits? resolved measured repetitions s =
      .error (.registerTooLarge resolved.qubits.length) := by
  have hon := Register.isOn_forCircuit resolved m.trunc
  have htrajectory : ∀ shots s, m.trajectory? resolved measured shots s =
      .error (.registerTooLarge resolved.qubits.length) := by
    intro shots s
    have hends := hon.applyAllNoisy_ends m.depolarizing s happlies
    have hend := hon.applyAllNoisy m.depolarizing s resolved.operations
    simp only [trajectory?, Register.applyCircuitNoisy, hends]
    exact map_eq_error_iff.mpr (hend.sample?_of_large hmeasured hsize _ _)
  unfold pointBits?
  split
  next => exact map_eq_error_iff.mpr (noisyBits?_eq_error hm hr htrajectory s)
  next =>
    obtain ⟨register, happly, hend⟩ := hon.exists_applyAll happlies
    simp only [Register.applyCircuit, happly]
    exact hend.sample?_of_large hmeasured hsize _ _

theorem point?_of_pointBits? {s : RandomStream} (hresolved : c.resolve b = .ok resolved)
    (hbits : ∀ measured, (∀ q ∈ measured, q ∈ resolved.qubits) →
      m.pointBits? resolved measured repetitions s = .error fault) :
    m.point? c b repetitions s = .error fault := by
  have herror := hbits _ fun q => Circuit.mem_qubits_of_measured
  simp only [point?, hresolved, bind, Except.bind, herror]

theorem point?_of_obstacle (hm : 1 ≤ m.trajectories) (hr : 1 ≤ repetitions)
    (h : c.Obstacle b fault) (s : RandomStream) :
    m.point? c b repetitions s = .error fault := by
  cases h with
  | unbound split bound symbol free =>
    exact bind_of_error (Circuit.resolve_of_unbound split bound symbol free)
  | distant bound split adjacent pair apart =>
    obtain ⟨resolved, hresolved⟩ := Circuit.exists_resolve bound
    obtain ⟨before, op, after, hsplit, happlies, hfails⟩ :=
      Register.exists_stop hresolved split adjacent pair apart
    have hon := Register.isOn_forCircuit resolved m.trunc
    rw [(Circuit.resolve_keeps hresolved).1] at hon
    refine point?_of_pointBits? hresolved fun measured _ => pointBits?_of_stops hm hr ?_ ?_ s
    · rw [hsplit]
      exact hon.applyAll_stops happlies hfails
    · intro s
      rw [hsplit]
      exact hon.applyAllNoisy_stops _ s happlies hfails
  | large bound adjacent size =>
    obtain ⟨resolved, hresolved⟩ := Circuit.exists_resolve bound
    have hqubits := (Circuit.resolve_keeps hresolved).1
    have happlies : ∀ o ∈ resolved.operations, o.Applies resolved.qubits := by
      rw [hqubits]
      exact Circuit.applies_of_forall₂ (Circuit.forall₂_operations hresolved) (fun _ ho => ho)
        adjacent
    rw [← hqubits] at size ⊢
    exact point?_of_pointBits? hresolved fun measured hmeasured =>
      pointBits?_of_large hm hr happlies hmeasured size s

theorem exists_point?_iff_clear (hm : 1 ≤ m.trajectories) (hr : 1 ≤ repetitions)
    {s : RandomStream} : (∃ result, m.point? c b repetitions s = .ok result) ↔ c.Clear b := by
  constructor
  · rintro ⟨result, hresult⟩
    refine (c.clear_or_obstacle b).resolve_right ?_
    rintro ⟨fault, hfault⟩
    cases hresult.symm.trans (point?_of_obstacle hm hr hfault s)
  · intro h
    obtain ⟨resolved, hresolved⟩ := Circuit.exists_resolve h.bound
    exact exists_point? hm hresolved (h.runs hresolved)

theorem point?_eq_error_iff (hm : 1 ≤ m.trajectories) (hr : 1 ≤ repetitions) {s : RandomStream} :
    m.point? c b repetitions s = .error fault ↔ c.Obstacle b fault := by
  refine ⟨fun herror => ?_, fun h => point?_of_obstacle hm hr h s⟩
  rcases c.clear_or_obstacle b with hclear | ⟨fault', hfault⟩
  · obtain ⟨result, hresult⟩ := (exists_point?_iff_clear hm hr).mpr hclear
    cases hresult.symm.trans herror
  · cases (point?_of_obstacle hm hr hfault s).symm.trans herror
    exact hfault

end MpsSampler

/-- A simulated point succeeds exactly if every symbol of the program has a value, every controlled
gate acts on two qubits that are neighbours among all qubits of the program, and these are at most
24. Else it fails on the first symbol without a value; where there is none, on the first gate
whose qubits are not neighbours; where there is none either, on the number of qubits. The failure
of a point does not depend on noise, truncation, readout, number of shots or stream. -/
theorem point_fails_exactly_on_obstacle [Scalar R] [ThinSvd R] (m : MpsSampler R)
    (program : Circuit R) (b : Bindings R) (repetitions : Nat) (s : RandomStream)
    (hm : 1 ≤ m.trajectories) (hr : 1 ≤ repetitions) :
    ((∃ result, m.point? program b repetitions s = .ok result) ↔
      (∀ op ∈ program.operations, ∀ name, op.symbol? = some name →
        ∃ x, b.get? name = some x) ∧
      (∀ op ∈ program.operations, ∀ p q, op.pair? = some (p, q) →
        Qubit.Neighbours program.qubits p q) ∧
      program.qubits.length ≤ 24) ∧
    (∀ fault, m.point? program b repetitions s = .error fault ↔ program.Obstacle b fault) ∧
    (∀ fault, m.point? program b repetitions s = .error fault →
      (∀ q, fault ≠ .unknownQubit q) ∧ (∀ expected got, fault ≠ .raggedRow expected got) ∧
        ∀ q, fault ≠ .overlappingFactor q) ∧
    ∀ (m' : MpsSampler R) (repetitions' : Nat) (s' : RandomStream), 1 ≤ m'.trajectories →
      1 ≤ repetitions' → ∀ fault, m.point? program b repetitions s = .error fault ↔
        m'.point? program b repetitions' s' = .error fault := by
  refine ⟨?_, fun fault => MpsSampler.point?_eq_error_iff hm hr, fun fault h => ?_,
    fun m' repetitions' s' hm' hr' fault => ?_⟩
  · rw [MpsSampler.exists_point?_iff_clear hm hr]
    exact ⟨fun h => ⟨h.bound, h.adjacent, h.size_le⟩, fun h => ⟨h.1, h.2.1, h.2.2⟩⟩
  · exact ((MpsSampler.point?_eq_error_iff hm hr).mp h).not_malformed
  · rw [MpsSampler.point?_eq_error_iff hm hr, MpsSampler.point?_eq_error_iff hm' hr']

/-- A controlled gate on the labels 0 and 2. It runs until label 1 is measured as well; then it
fails, with and without noise. -/
theorem point_fails_exactly_on_obstacle_between :
    let _ : ThinSvd ℝ := ⟨diagonalFactors⟩
    let clean : MpsSampler ℝ := MpsSampler.ofSeed "clean"
    let noisy : MpsSampler ℝ := { MpsSampler.ofSeed "noisy" with depolarizing := 1 / 10 }
    let gate : Circuit ℝ := ⟨[[.cnot ⟨0⟩ ⟨2⟩], [.measure [⟨2⟩, ⟨0⟩] "m"]]⟩
    let wide : Circuit ℝ := gate.push [.measure [⟨1⟩] "n"]
    ∀ s, (∃ result, clean.point? gate ∅ 8 s = .ok result) ∧
      clean.point? wide ∅ 8 s = .error (.nonAdjacent ⟨0⟩ ⟨2⟩) ∧
      noisy.point? wide ∅ 3 s = .error (.nonAdjacent ⟨0⟩ ⟨2⟩) := by
  intro _ clean noisy gate wide s
  have hgate : gate.qubits = [⟨0⟩, ⟨2⟩] := rfl
  have hwide : wide.qubits = [⟨0⟩, ⟨1⟩, ⟨2⟩] := rfl
  have hnone : ∀ o ∈ wide.operations, o.symbol? = none := by
    simp [wide, gate, Circuit.push, Circuit.operations, Operation.symbol?]
  have hsplit : wide.operations = [] ++ .cnot ⟨0⟩ ⟨2⟩ ::
      [.measure [⟨2⟩, ⟨0⟩] "m", .measure [⟨1⟩] "n"] := rfl
  have hapart : ¬ Qubit.Neighbours wide.qubits ⟨0⟩ ⟨2⟩ := by
    rw [hwide]
    exact fun h => (h.2 ⟨1⟩ (by simp)).1 (by decide)
  have hobstacle : wide.Obstacle ∅ (.nonAdjacent ⟨0⟩ ⟨2⟩) :=
    .distant (fun o ho => Operation.bound_of_symbol?_eq_none (hnone o ho)) hsplit
      (List.forall_mem_nil _) rfl hapart
  have hpush : wide.operations = gate.operations ++ [.measure [⟨1⟩] "n"] := rfl
  have hbound : ∀ o ∈ gate.operations, o.Bound ∅ := fun o ho =>
    Operation.bound_of_symbol?_eq_none (hnone o (hpush ▸ List.mem_append_left _ ho))
  have hadjacent : ∀ o ∈ gate.operations, o.Adjacent gate.qubits := by
    refine List.forall_mem_cons.mpr ⟨fun p q hpair => ?_, List.forall_mem_singleton.mpr
      (Operation.adjacent_of_pair?_eq_none rfl)⟩
    cases hpair
    rw [hgate]
    exact ⟨by decide, by simp [Qubit.lt_iff]⟩
  obtain ⟨hok, -⟩ := point_fails_exactly_on_obstacle clean gate ∅ 8 s (by decide) (by decide)
  obtain ⟨-, hfault, -, hsame⟩ :=
    point_fails_exactly_on_obstacle clean wide ∅ 8 s (by decide) (by decide)
  have hfails := (hfault _).mpr hobstacle
  have hsize : gate.qubits.length ≤ 24 := by
    rw [hgate]
    decide
  exact ⟨hok.mpr ⟨hbound, hadjacent, hsize⟩, hfails,
    (hsame noisy 3 s (by decide) (by decide) _).mp hfails⟩

end PauliEstimation
