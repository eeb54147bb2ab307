import Mathlib.LinearAlgebra.Matrix.SemiringInverse
import PauliEstimation.Proofs.BasisChange.Resolution
import PauliEstimation.Proofs.BasisChange.Table
import PauliEstimation.Proofs.Register.Shots
import PauliEstimation.Proofs.Register.Simulation

namespace PauliEstimation

open Matrix

namespace BasisChange

/-- The two initial rotations of a qubit, as one matrix. -/
noncomputable def preparation (s : Eigenstate) : Matrix Bool Bool ℂ :=
  (Gate.power .y (initialExponents (R := ℝ) s).2).matrix *
    (Gate.power .x (initialExponents (R := ℝ) s).1).matrix

/-- An eigenstate is prepared by undoing the rotation that reads it as zero. -/
theorem preparation_eq (s : Eigenstate) :
    preparation s = (rotation s.axis (!s.positive))ᴴ := by
  obtain ⟨axis, positive⟩ := s
  cases axis <;> cases positive <;>
    simp [preparation, rotation, initialExponents, finalExponents, Gate.matrix_power_zero,
      ← Gate.matrix_power_neg, Gate.matrix_power_neg_one]

theorem preparation_unitary (s : Eigenstate) : (preparation s)ᴴ * preparation s = 1 := by
  rw [preparation_eq, conjTranspose_conjTranspose]
  exact mul_eq_one_comm.mp (rotation_unitary _ _)

theorem preparation_conjugates (s : Eigenstate) :
    (preparation s)ᴴ * s.axis.matrix * preparation s =
      readoutMatrix (some s.axis) (!s.positive) := by
  have hinv : rotation s.axis (!s.positive) * (rotation s.axis (!s.positive))ᴴ = 1 :=
    mul_eq_one_comm.mp (rotation_unitary _ _)
  rw [preparation_eq, conjTranspose_conjTranspose, ← rotation_conjugates s.axis (!s.positive)]
  calc
    _ = rotation s.axis (!s.positive) * (rotation s.axis (!s.positive))ᴴ *
        readoutMatrix (some s.axis) (!s.positive) *
          (rotation s.axis (!s.positive) * (rotation s.axis (!s.positive))ᴴ) := by
      simp only [mul_assoc]
    _ = _ := by rw [hinv, one_mul, mul_one]

/-- The expectation of a Pauli operator in an eigenstate. The operator of another axis anticommutes
with the one that the state belongs to. -/
theorem preparation_expectation (s : Eigenstate) (axis : Pauli) :
    ((preparation s)ᴴ * axis.matrix * preparation s) false false =
      if s.axis = axis then (if s.positive then 1 else -1) else 0 := by
  by_cases h : s.axis = axis
  · subst h
    rw [if_pos rfl, preparation_conjugates, readoutMatrix, diagonal_apply_eq]
    cases s.positive <;> simp [readout]
  · rw [if_neg h]
    have hinv : preparation s * (preparation s)ᴴ = 1 := mul_eq_one_comm.mp (preparation_unitary s)
    have hmul : ∀ m m' : Matrix Bool Bool ℂ,
        ((preparation s)ᴴ * m * preparation s) * ((preparation s)ᴴ * m' * preparation s) =
          (preparation s)ᴴ * (m * m') * preparation s := by
      intro m m'
      calc
        _ = (preparation s)ᴴ * m * (preparation s * (preparation s)ᴴ) * m' * preparation s := by
          simp only [mul_assoc]
        _ = _ := by simp only [hinv, mul_one, mul_assoc]
    have hanti := hmul axis.matrix s.axis.matrix
    rw [Pauli.matrix_anticommute h, mul_neg, neg_mul, ← hmul, preparation_conjugates] at hanti
    have hentry := congrFun (congrFun hanti false) false
    rw [readoutMatrix, mul_diagonal, Matrix.neg_apply, diagonal_mul] at hentry
    have hsign : ((readout (some s.axis) (!s.positive) false : ℝ) : ℂ) ≠ 0 := by
      cases s.positive <;> simp [readout]
    have hzero : 2 * ((readout (some s.axis) (!s.positive) false : ℝ) : ℂ) *
        ((preparation s)ᴴ * axis.matrix * preparation s) false false = 0 := by
      linear_combination hentry
    simpa [hsign] using hzero

namespace Frame

/-- The probability that a qubit shows a bit: a state of the axis that is read shows the bit of its
sign with the flip added, any other state shows either bit. -/
noncomputable def likelihood (f : Frame) (bit : Bool) : ℝ :=
  if f.state = ⟨f.axis, !(xor bit f.flip)⟩ then 1
  else if f.state = ⟨f.axis, xor bit f.flip⟩ then 0
  else Scalar.half

/-- Both pairs of rotations of a qubit, as one matrix. -/
noncomputable def matrix (f : Frame) : Matrix Bool Bool ℂ :=
  rotation f.axis f.flip * preparation f.state

theorem matrix_unitary (f : Frame) : f.matrixᴴ * f.matrix = 1 := by
  rw [matrix, conjTranspose_mul, mul_assoc, ← mul_assoc _ (rotation _ _), rotation_unitary, one_mul,
    preparation_unitary]

/-- The readout in the image of zero, by the probabilities of the two bits. -/
theorem conjugate_apply_zero (f : Frame) (d : Bool → ℝ) :
    (f.matrixᴴ * diagonal (fun bit => (d bit : ℂ)) * f.matrix) false false =
      ((∑ bit, Complex.normSq (f.matrix bit false) * d bit : ℝ) : ℂ) := by
  rw [mul_apply, Complex.ofReal_sum]
  apply Finset.sum_congr rfl
  intro bit _
  rw [mul_diagonal, conjTranspose_apply, Complex.ofReal_mul, Complex.normSq_eq_conj_mul_self,
    Complex.star_def]
  ring

theorem sum_normSq_matrix (f : Frame) : ∑ bit, Complex.normSq (f.matrix bit false) = 1 := by
  have h := f.conjugate_apply_zero fun _ => 1
  rw [Complex.ofReal_one, diagonal_one, mul_one, matrix_unitary, one_apply_eq] at h
  simpa using (Complex.ofReal_injective (h.symm.trans Complex.ofReal_one.symm))

/-- The mean readout of a qubit that starts from zero. -/
theorem sum_normSq_matrix_mul_readout (f : Frame) :
    ∑ bit, Complex.normSq (f.matrix bit false) * readout (some f.axis) f.flip bit =
      if f.state.axis = f.axis then (if f.state.positive then 1 else -1) else 0 := by
  apply Complex.ofReal_injective
  rw [← conjugate_apply_zero]
  calc
    _ = ((preparation f.state)ᴴ * ((rotation f.axis f.flip)ᴴ *
        readoutMatrix (some f.axis) f.flip * rotation f.axis f.flip) *
          preparation f.state) false false := by
      rw [matrix, conjTranspose_mul]
      simp only [mul_assoc]
      rfl
    _ = _ := by
      rw [rotation_conjugates, preparation_expectation]
      split_ifs <;> simp

/-- The probabilities of the two bits are determined by their mean readout. -/
theorem two_mul_weight {w : Bool → ℝ} (hone : ∑ bit, w bit = 1) (axis : Pauli) (flip bit : Bool) :
    2 * w bit = 1 + readout (some axis) flip bit * ∑ b, w b * readout (some axis) flip b := by
  rw [Fintype.sum_bool] at hone ⊢
  cases flip <;> cases bit <;> simp [readout] <;> linarith

theorem normSq_matrix (f : Frame) (bit : Bool) :
    Complex.normSq (f.matrix bit false) = f.likelihood bit := by
  have hweight := two_mul_weight f.sum_normSq_matrix f.axis f.flip bit
  rw [f.sum_normSq_matrix_mul_readout] at hweight
  have hlikelihood : 2 * f.likelihood bit = 1 + readout (some f.axis) f.flip bit *
      if f.state.axis = f.axis then (if f.state.positive then 1 else -1) else 0 := by
    obtain ⟨qubit, ⟨axis', positive⟩, axis, flip⟩ := f
    by_cases h : axis' = axis
    · subst h
      cases positive <;> cases flip <;> cases bit <;> norm_num [readout, likelihood]
    · norm_num [likelihood, h, Scalar.half_real]
  linarith

end Frame

/-- The frames of distinct qubits are found by their qubits. -/
theorem exists_frameOf {frames : List Frame} (hn : (frames.map Frame.qubit).Nodup) :
    ∃ frameOf : Qubit → Frame, ∀ f ∈ frames, frameOf f.qubit = f := by
  have : Nonempty Frame := ⟨⟨⟨0⟩, Eigenstate.zero, .z, false⟩⟩
  have hinj : Set.InjOn Frame.qubit {f | f ∈ frames} :=
    fun f hf g hg h => List.inj_on_of_nodup_map hn hf hg h
  exact ⟨Function.invFunOn Frame.qubit {f | f ∈ frames}, fun f hf => hinj.leftInvOn_invFunOn hf⟩

/-- Rotations of all qubits of a register, listed in any order. -/
theorem applyAll_rotations [ThinSvd ℝ] {r : Register ℝ} {frames : List Frame}
    {frameOf : Qubit → Frame} (slot : Slot) (rest : List (Operation ℝ)) (h : r.WellFormed)
    (hn : (frames.map Frame.qubit).Nodup) (hframe : ∀ f ∈ frames, frameOf f.qubit = f)
    (hmem : ∀ q, q ∈ frames.map Frame.qubit ↔ q ∈ r.qubits) :
    ∃ state : Mps ℝ, Register.WellFormed { r with state := state } ∧
      r.applyAll (rotations slot frames ++ rest) =
        Register.applyAll { r with state := state } rest ∧
      Register.amplitude { r with state := state } =
        (kron fun k : Fin r.qubits.length =>
          (Gate.power slot.axis ((frameOf (r.qubits.get k)).exponent slot)).matrix) *ᵥ
            r.amplitude := by
  obtain ⟨state, hstate, hrun, hamp⟩ := Register.applyAll_powers slot.axis
    (fun q => (frameOf q).exponent slot) rest h hn fun q hq => (hmem q).mp hq
  refine ⟨state, hstate, ?_, ?_⟩
  · rw [← hrun, List.map_map, rotations]
    congr 2
    apply List.map_congr_left
    intro f hf
    rw [Function.comp_apply, hframe f hf]
  · rw [hamp]
    congr 2
    funext k
    exact if_pos ((hmem _).mpr (List.getElem_mem k.isLt))

/-- All four layers of rotations, with the measurement after them. -/
theorem applyCircuit_flanked [ThinSvd ℝ] {r : Register ℝ} {frames : List Frame}
    {frameOf : Qubit → Frame} (h : r.WellFormed)
    (hn : (frames.map Frame.qubit).Nodup) (hframe : ∀ f ∈ frames, frameOf f.qubit = f)
    (hmem : ∀ q, q ∈ frames.map Frame.qubit ↔ q ∈ r.qubits) :
    ∃ state : Mps ℝ, r.applyCircuit (flanked ∅ true frames) = ({ r with state := state }, none) ∧
      Register.WellFormed { r with state := state } ∧
      Register.amplitude { r with state := state } =
        (kron fun k : Fin r.qubits.length => (frameOf (r.qubits.get k)).matrix) *ᵥ r.amplitude := by
  let measured : List (Operation ℝ) := [.measure (frames.map Frame.qubit) key]
  obtain ⟨s₁, h₁, hrun₁, hamp₁⟩ := applyAll_rotations .xInitial
    (rotations .yInitial frames ++ (rotations .xFinal frames ++ (rotations .yFinal frames ++
      measured))) h hn hframe hmem
  obtain ⟨s₂, h₂, hrun₂, hamp₂⟩ := applyAll_rotations .yInitial
    (rotations .xFinal frames ++ (rotations .yFinal frames ++ measured)) h₁ hn hframe hmem
  obtain ⟨s₃, h₃, hrun₃, hamp₃⟩ := applyAll_rotations .xFinal
    (rotations .yFinal frames ++ measured) h₂ hn hframe hmem
  obtain ⟨s₄, h₄, hrun₄, hamp₄⟩ := applyAll_rotations .yFinal measured h₃ hn hframe hmem
  refine ⟨s₄, (hrun₁.trans (hrun₂.trans (hrun₃.trans hrun₄))), h₄, ?_⟩
  rw [hamp₄, hamp₃, hamp₂, hamp₁]
  simp only [mulVec_mulVec, kron_mul]
  congr 2
  funext k
  rw [Frame.matrix, rotation, preparation, mul_assoc]
  rfl

/-- From all zeros, the probability of a string of bits is a product over the qubits. -/
theorem basisWeight_flanked {r : Register ℝ} {frames : List Frame} {frameOf : Qubit → Frame}
    (h : r.WellFormed) (hn : (frames.map Frame.qubit).Nodup)
    (hframe : ∀ f ∈ frames, frameOf f.qubit = f)
    (hmem : ∀ q, q ∈ frames.map Frame.qubit ↔ q ∈ r.qubits)
    (hamp : r.amplitude = (kron fun k => (frameOf (r.qubits.get k)).matrix) *ᵥ
      Pi.single (fun _ => false) 1) {i : Nat} (hi : i < 2 ^ r.qubits.length) :
    r.state.basisWeight i =
      (frames.map fun f => f.likelihood (Register.bitAt r.qubits i f.qubit)).prod := by
  have hnorm : ∑ b, Complex.normSq (r.amplitude b) = 1 := by
    rw [hamp, norm_kron_mulVec fun k => (frameOf (r.qubits.get k)).matrix_unitary]
    simp [Pi.single_apply, apply_ite Complex.normSq]
  have hentry : (r.state.stateVector.getD i 0).toComplex =
      r.amplitude (Mps.bitsOf r.qubits.length i) := by
    have hsize : r.state.size = r.qubits.length := h.size_eq
    have hentry := Mps.toComplex_stateVector h.state (hsize ▸ hi)
    rwa [hsize] at hentry
  have hperm : (frames.map Frame.qubit).Perm r.qubits :=
    (List.perm_ext_iff_of_nodup hn h.nodup).mpr hmem
  calc
    _ = Complex.normSq (r.amplitude (Mps.bitsOf r.qubits.length i)) := by
      rw [Mps.basisWeight, h.size_eq, Mps.norm_stateVector h.state h.size_eq]
      rw [show ∑ b, Complex.normSq (r.state.amplitude b) = 1 from hnorm, div_one,
        Amplitude.normSq_eq, hentry]
    _ = ∏ k : Fin r.qubits.length,
        (frameOf (r.qubits.get k)).likelihood (Mps.bitsOf r.qubits.length i k) := by
      rw [hamp, mulVec_single_one, col_apply, kron_apply, map_prod]
      exact Finset.prod_congr rfl fun k _ => Frame.normSq_matrix _ _
    _ = ∏ k : Fin r.qubits.length,
        (frameOf (r.qubits.get k)).likelihood (Register.bitAt r.qubits i (r.qubits.get k)) := by
      refine Finset.prod_congr rfl fun k _ => ?_
      rw [Register.bitAt_get h.nodup]
      rfl
    _ = (r.qubits.map fun q => (frameOf q).likelihood (Register.bitAt r.qubits i q)).prod :=
      Fin.prod_univ_fun_getElem r.qubits fun q =>
        (frameOf q).likelihood (Register.bitAt r.qubits i q)
    _ = _ := by
      rw [← (hperm.map _).prod_eq, List.map_map]
      congr 1
      apply List.map_congr_left
      intro f hf
      rw [Function.comp_apply, hframe f hf]

end BasisChange

/-- Framed qubits, run from all zeros, show every string of bits with the product of the
probabilities that the single qubits give to their bits. -/
theorem prepared_states_read_out [ThinSvd ℝ] (frames : List BasisChange.Frame) (s : Setting ℝ)
    (trunc : Truncation ℝ) (hn : (frames.map BasisChange.Frame.qubit).Nodup)
    (hs : ∀ f ∈ frames, s.initial.get? f.qubit = some f.state ∧
      s.observable.get? f.qubit = some f.axis) :
    let qubits := frames.map BasisChange.Frame.qubit
    ∃ b circuit r,
      BasisChange.bindings? s (frames.map BasisChange.Frame.flip) qubits true = .ok b ∧
      (BasisChange.template ∅ qubits true).resolve b = .ok circuit ∧
      (Register.ofQubits qubits trunc).applyCircuit circuit = (r, none) ∧
      r.qubits = Qubit.ascending qubits ∧
      r.state.stateVector.size = 2 ^ frames.length ∧
      ∀ i < 2 ^ frames.length, r.state.basisWeight i =
        (frames.map fun f => f.likelihood (Register.bitAt r.qubits i f.qubit)).prod := by
  intro qubits
  have hframing : BasisChange.IsFraming s qubits (frames.map BasisChange.Frame.flip) frames :=
    ⟨rfl, rfl, fun f hf => (hs f hf).1, fun f hf => (hs f hf).2⟩
  have hcovered : ∀ q ∈ qubits, q ∈ s.observable.qubits ∧ q ∈ s.initial.keys := by
    intro q hq
    obtain ⟨f, hf, rfl⟩ := List.mem_map.mp hq
    exact ⟨QubitMap.mem_keys_iff.mpr ⟨_, (hs f hf).2⟩, QubitMap.mem_keys_iff.mpr ⟨_, (hs f hf).1⟩⟩
  have hflips : (frames.map BasisChange.Frame.flip).length = qubits.length := by simp [qubits]
  obtain ⟨b, hb, _⟩ := BasisChange.bindings?_eq_ok hn hflips (fun q hq => (hcovered q hq).1)
    fun (_ : true = true) q hq => (hcovered q hq).2
  have hres := BasisChange.resolve_template (c := ∅) (p := .empty) hn hb hframing
    (fun _ _ _ => List.not_mem_nil) fun _ _ _ => List.not_mem_nil
  obtain ⟨frameOf, hframe⟩ := BasisChange.exists_frameOf hn
  have hr := Register.wellFormed_ofQubits qubits trunc
  have hmem : ∀ q, q ∈ qubits ↔ q ∈ (Register.ofQubits qubits trunc).qubits :=
    fun q => Qubit.mem_ascending.symm
  obtain ⟨state, hrun, hwf, hamp⟩ := BasisChange.applyCircuit_flanked hr hn hframe hmem
  rw [Register.amplitude_ofQubits] at hamp
  have hlen : (Qubit.ascending qubits).length = frames.length := by
    rw [← List.length_map BasisChange.Frame.qubit]
    exact ((List.perm_ext_iff_of_nodup hn hr.nodup).mpr hmem).length_eq.symm
  refine ⟨b, _, _, hb, hres, hrun, rfl, ?_, fun i hi => ?_⟩
  · rw [Mps.size_stateVector hwf.state, hwf.size_eq]
    exact congrArg (2 ^ ·) hlen
  · exact BasisChange.basisWeight_flanked hwf hn hframe hmem hamp (hlen ▸ hi)

/-- A state of `X` is read with a flip, one of `-Y` without, and one of `Z` along `X`: the first two
qubits are sure to show one, the third shows either. -/
theorem prepared_states_read_out_mixed :
    let _ : ThinSvd ℝ := ⟨fun block => ⟨block, [], block⟩⟩
    let frames : List BasisChange.Frame := [⟨⟨5⟩, ⟨.x, true⟩, .x, true⟩,
      ⟨⟨2⟩, ⟨.y, false⟩, .y, false⟩, ⟨⟨9⟩, .zero, .x, false⟩]
    let s : Setting ℝ := ⟨QubitMap.ofList [(⟨5⟩, ⟨.x, true⟩), (⟨2⟩, ⟨.y, false⟩), (⟨9⟩, .zero)],
      PauliString.ofList [(⟨5⟩, .x), (⟨2⟩, .y), (⟨9⟩, .x)]⟩
    (frames.map BasisChange.Frame.qubit).Nodup ∧
      (∀ f ∈ frames, s.initial.get? f.qubit = some f.state ∧
        s.observable.get? f.qubit = some f.axis) ∧
      ∃ b circuit r,
        BasisChange.bindings? s [true, false, false] [⟨5⟩, ⟨2⟩, ⟨9⟩] true = .ok b ∧
        (BasisChange.template ∅ [⟨5⟩, ⟨2⟩, ⟨9⟩] true).resolve b = .ok circuit ∧
        (Register.ofQubits [⟨5⟩, ⟨2⟩, ⟨9⟩] Truncation.exact).applyCircuit circuit = (r, none) ∧
        ∀ i < 8, r.state.basisWeight i = if i < 6 then 0 else 1 / 2 := by
  intro _ frames s
  have hn : (frames.map BasisChange.Frame.qubit).Nodup := by decide
  have hs : ∀ f ∈ frames, s.initial.get? f.qubit = some f.state ∧
      s.observable.get? f.qubit = some f.axis := by
    simp only [frames, List.forall_mem_cons]
    exact ⟨⟨rfl, rfl⟩, ⟨rfl, rfl⟩, ⟨rfl, rfl⟩, nofun⟩
  obtain ⟨b, circuit, r, hb, hres, hrun, hqubits, _, hweight⟩ :=
    prepared_states_read_out frames s Truncation.exact hn hs
  refine ⟨hn, hs, b, circuit, r, hb, hres, hrun, fun i hi => ?_⟩
  have hlabels : r.qubits = [⟨2⟩, ⟨5⟩, ⟨9⟩] := hqubits.trans (by decide)
  have hbits : ∀ i < 8, (i.testBit 1 && i.testBit 2) = !decide (i < 6) := by decide
  calc
    _ = BasisChange.Frame.likelihood ⟨⟨5⟩, ⟨.x, true⟩, .x, true⟩ (i.testBit 1) *
        (BasisChange.Frame.likelihood ⟨⟨2⟩, ⟨.y, false⟩, .y, false⟩ (i.testBit 2) *
          (BasisChange.Frame.likelihood ⟨⟨9⟩, .zero, .x, false⟩ (i.testBit 0) * 1)) := by
      rw [hweight i hi, hlabels]
      rfl
    _ = if i.testBit 1 && i.testBit 2 then 1 / 2 else 0 := by
      cases i.testBit 1 <;> cases i.testBit 2 <;>
        simp [BasisChange.Frame.likelihood, Eigenstate.zero, Scalar.half_real]
    _ = _ := by
      rw [hbits i hi]
      by_cases h : i < 6 <;> simp [h]

end PauliEstimation
