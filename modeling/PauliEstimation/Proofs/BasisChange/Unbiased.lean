import PauliEstimation.Proofs.BasisChange.Binding
import PauliEstimation.Proofs.BasisChange.Readout
import PauliEstimation.Proofs.Exact.Layer

namespace PauliEstimation

open Matrix

namespace BasisChange

/-- The final layers, bound for a setting that covers the register, rotate every qubit as the table
says. -/
theorem applyCircuit_finalLayers [ThinSvd ℝ] {r : Register ℝ} {padded : Setting ℝ}
    {axes : Fin r.qubits.length → Pauli} (flips : Fin r.qubits.length → Bool)
    (needsInitial : Bool) (hr : r.WellFormed)
    (haxes : ∀ k, padded.observable.get? (r.qubits.get k) = some (axes k))
    (hinit : needsInitial = true → ∀ q ∈ r.qubits, q ∈ padded.initial.keys) :
    ∃ b circuit state, bindings? padded (List.ofFn flips) r.qubits needsInitial = .ok b ∧
      Circuit.resolve ⟨[layer .xFinal r.qubits, layer .yFinal r.qubits]⟩ b = .ok circuit ∧
      r.applyCircuit circuit = ({ r with state := state }, none) ∧
      Register.WellFormed { r with state := state } ∧
      Register.amplitude { r with state := state } =
        (kron fun k => rotation (axes k) (flips k)) *ᵥ r.amplitude := by
  have hobs : ∀ q ∈ r.qubits, q ∈ padded.observable.qubits := by
    intro q hq
    obtain ⟨k, hk, rfl⟩ := List.mem_iff_getElem.mp hq
    exact QubitMap.mem_keys_iff.mpr ⟨axes ⟨k, hk⟩, haxes ⟨k, hk⟩⟩
  have hlen : (List.ofFn flips).length = r.qubits.length := List.length_ofFn
  obtain ⟨b, hb, hget⟩ := bindings?_eq_ok hr.nodup hlen hobs hinit
  have hx : ∀ k : Fin r.qubits.length, b.get? (Slot.xFinal.symbol (r.qubits.get k)) =
      some (finalExponents (axes k) (flips k)).1 := by
    intro k
    rw [hget k (r.qubits.get k) (flips k) (List.getElem?_eq_getElem k.isLt) (by simp) .xFinal rfl,
      slotExponent?, haxes k, Option.map_some]
  have hy : ∀ k : Fin r.qubits.length, b.get? (Slot.yFinal.symbol (r.qubits.get k)) =
      some (finalExponents (axes k) (flips k)).2 := by
    intro k
    rw [hget k (r.qubits.get k) (flips k) (List.getElem?_eq_getElem k.isLt) (by simp) .yFinal rfl,
      slotExponent?, haxes k, Option.map_some]
  -- All symbols of the two layers are bound, so the default is never taken.
  let e : Slot → Qubit → ℝ := fun slot q => (b.get? (slot.symbol q)).getD 0
  have hbound : ∀ q ∈ r.qubits, b.get? (Slot.xFinal.symbol q) = some (e .xFinal q) ∧
      b.get? (Slot.yFinal.symbol q) = some (e .yFinal q) := by
    intro q hq
    obtain ⟨k, hk, rfl⟩ := List.mem_iff_getElem.mp hq
    have hxk := Option.ne_none_iff_exists'.mpr ⟨_, hx ⟨k, hk⟩⟩
    have hyk := Option.ne_none_iff_exists'.mpr ⟨_, hy ⟨k, hk⟩⟩
    exact ⟨(Option.getD_of_ne_none hxk 0).symm, (Option.getD_of_ne_none hyk 0).symm⟩
  obtain ⟨first, hfirst, hrun, hamp⟩ := Register.applyAll_layer .x (e .xFinal)
    ((r.qubits.map fun q => .power .y q (.value (e .yFinal q))) ++ []) hr
  obtain ⟨second, hsecond, hrun', hamp'⟩ := Register.applyAll_layer .y (e .yFinal) [] hfirst
  refine ⟨b, ⟨[_, _]⟩, second, hb, ?_, hrun.trans hrun', hsecond, ?_⟩
  · have hresolve : [layer .xFinal r.qubits, layer .yFinal r.qubits].mapM
        (List.mapM (Operation.resolve b)) = .ok [_, _] :=
      mapM_eq_ok_iff.mpr (.cons (resolve_layer fun q hq => (hbound q hq).1)
        (.cons (resolve_layer fun q hq => (hbound q hq).2) .nil))
    rw [Circuit.resolve, hresolve]
    rfl
  · have hturn : ∀ k : Fin r.qubits.length,
        (Gate.power .y (e .yFinal (r.qubits.get k))).matrix *
            (Gate.power .x (e .xFinal (r.qubits.get k))).matrix = rotation (axes k) (flips k) := by
      intro k
      simp only [e, hx k, hy k, Option.getD_some]
      rfl
    rw [hamp', hamp, Matrix.mulVec_mulVec]
    congr 1
    exact (kron_mul _ _).trans (congrArg kron (funext hturn))

/-- The mean sign read off the rotated amplitudes is the quadratic form of the observable's
operator in the amplitudes before. -/
theorem sum_readout_rotated {n : Nat} {axes : Fin n → Pauli} {factors : Fin n → Option Pauli}
    (flips : Fin n → Bool) (v : (Fin n → Bool) → ℂ)
    (hf : ∀ k axis, factors k = some axis → axes k = axis) :
    ((∑ b, Complex.normSq (((kron fun k => rotation (axes k) (flips k)) *ᵥ v) b) *
        ∏ k, readout (factors k) (flips k) (b k) : ℝ) : ℂ) =
      star v ⬝ᵥ ((kron fun k => siteOperator (factors k)) *ᵥ v) := by
  have hsite : ∀ k, (rotation (axes k) (flips k))ᴴ * readoutMatrix (factors k) (flips k) *
      rotation (axes k) (flips k) = siteOperator (factors k) := by
    intro k
    cases hk : factors k with
    | none => exact rotation_conjugates_none (axes k) (flips k)
    | some axis =>
      rw [hf k axis hk]
      exact rotation_conjugates axis (flips k)
  rw [sum_normSq_kron_mulVec _ fun k => readout (factors k) (flips k)]
  exact congrArg (fun m => star v ⬝ᵥ (m *ᵥ v)) (congrArg kron (funext hsite))

end BasisChange

/-- An observable's exact expectation is its coefficient times its normed quadratic form. -/
theorem Register.expectation?_eq_form {r : Register ℝ} {observable : PauliString ℝ}
    (h : r.WellFormed) (hsub : ∀ q ∈ observable.qubits, q ∈ r.qubits) :
    r.expectation? observable = .ok (observable.coefficient *
      ((star r.amplitude ⬝ᵥ
        ((kron fun k : Fin r.qubits.length => siteOperator (observable.get? (r.qubits.get k))) *ᵥ
          r.amplitude)).re / ∑ b, Complex.normSq (r.amplitude b))) := by
  have hform := Mps.pauliExpectation_eq h.state h.size_eq (PauliString.nodup_siteFactors hsub)
    (PauliString.siteFactors_lt hsub)
  have hlookup : ∀ k : Fin r.qubits.length,
      (observable.siteFactors r.qubits).lookup k.val = observable.get? (r.qubits.get k) :=
    fun k => PauliString.lookup_siteFactors h.nodup hsub (List.getElem?_eq_getElem k.isLt)
  simp only [hlookup] at hform
  have hsites : ∀ f ∈ observable.siteFactors r.qubits, f.1 < r.state.size :=
    h.size_eq ▸ PauliString.siteFactors_lt hsub
  unfold expectation?
  rw [factors?_eq_ok h hsub]
  dsimp only [bind, Except.bind]
  rw [Mps.pauliExpectation?_eq_ok hsites]
  exact congrArg Except.ok (congrArg (observable.coefficient * ·) hform)

theorem basis_change_is_unbiased [ThinSvd ℝ] (r : Register ℝ) (padded s : Setting ℝ)
    (flips : List Bool) (needsInitial : Bool) (hr : r.WellFormed)
    (hnorm : ∑ i ∈ Finset.range (2 ^ r.qubits.length),
      (r.state.stateVector.getD i 0).normSq ≠ 0)
    (hobs : padded.observable.qubits = r.qubits) (hinit : padded.initial.keys = r.qubits)
    (hflips : flips.length = r.qubits.length) (hs : s.IsCompatibleWith padded) :
    ∃ b circuit state,
      BasisChange.bindings? padded flips r.qubits needsInitial = .ok b ∧
      Circuit.resolve ⟨[BasisChange.layer .xFinal r.qubits, BasisChange.layer .yFinal r.qubits]⟩
        b = .ok circuit ∧
      r.applyCircuit circuit = ({ r with state := state }, none) ∧
      state.stateVector.size = 2 ^ r.qubits.length ∧
      ∑ i ∈ Finset.range (2 ^ r.qubits.length), state.basisWeight i = 1 ∧
      (∀ a : Accumulator ℝ, a.columns = Job.columnsOf r.qubits →
        a.bits.width = r.qubits.length →
        a.values? s = .ok (a.bits.rows.map (rowValue r.qubits s.observable))) ∧
      r.expectation? s.observable =
        .ok (∑ i ∈ Finset.range (2 ^ r.qubits.length), state.basisWeight i *
          rowValue r.qubits s.observable (List.zipWith xor
            (Mps.shotRow r.qubits.length (List.range r.qubits.length) i) flips)) := by
  have hsub : ∀ q ∈ s.observable.qubits, q ∈ r.qubits := by
    intro q hq
    obtain ⟨axis, haxis⟩ := QubitMap.mem_keys_iff.mp hq
    rw [← hobs]
    exact QubitMap.mem_keys_iff.mpr ⟨axis, hs.1 _ (QubitMap.get?_eq_some_iff.mp haxis)⟩
  have hcover : ∀ k : Fin r.qubits.length, ∃ axis,
      padded.observable.get? (r.qubits.get k) = some axis := by
    intro k
    apply QubitMap.mem_keys_iff.mp
    rw [show padded.observable.factors.keys = r.qubits from hobs]
    exact List.getElem_mem k.isLt
  choose axes haxes using hcover
  obtain ⟨f, rfl⟩ : ∃ f : Fin r.qubits.length → Bool, flips = List.ofFn f := by
    refine ⟨fun k => flips.get (k.cast hflips.symm), ?_⟩
    apply List.ext_getElem
    · simp [hflips]
    · intro i _ _
      simp
  obtain ⟨b, circuit, state, hb, hres, hrun, hwf, hamp⟩ :=
    BasisChange.applyCircuit_finalLayers f needsInitial hr haxes fun _ q hq => hinit ▸ hq
  have hstate : state.WellFormed := hwf.state
  have hsize : state.size = r.qubits.length := hwf.size_eq
  have hamp : state.amplitude =
      (kron fun k => BasisChange.rotation (axes k) (f k)) *ᵥ r.amplitude := hamp
  have hkept : ∑ b : Fin r.qubits.length → Bool, Complex.normSq (state.amplitude b) =
      ∑ b, Complex.normSq (r.amplitude b) := by
    rw [hamp, norm_kron_mulVec fun k => BasisChange.rotation_unitary (axes k) (f k)]
  refine ⟨b, circuit, state, hb, hres, hrun, ?_, ?_, ?_, ?_⟩
  · rw [Mps.size_stateVector hstate, hsize]
  · have hpos : ∑ b, Complex.normSq (r.amplitude b) ≠ 0 := by
      rw [Mps.norm_stateVector hr.state hr.size_eq] at hnorm
      exact hnorm
    have hone := Mps.sum_basisWeight_mul hstate hsize fun _ => 1
    simp only [mul_one] at hone
    rw [hone, hkept, div_self hpos]
  · intro a hc hw
    exact Accumulator.values?_eq_rowValue hr.nodup hsub hc hw
  · have hfactor : ∀ k axis, s.observable.get? (r.qubits.get k) = some axis → axes k = axis := by
      intro k axis hk
      have hpad := hs.1 _ (QubitMap.get?_eq_some_iff.mp hk)
      exact Option.some.inj ((haxes k).symm.trans hpad)
    have hform := congrArg Complex.re
      (BasisChange.sum_readout_rotated f r.amplitude hfactor)
    rw [Complex.ofReal_re, ← hamp] at hform
    have hmean := Mps.sum_basisWeight_mul hstate hsize fun b =>
      rowValue r.qubits s.observable (List.zipWith xor (List.ofFn b) (List.ofFn f))
    simp only [Mps.ofFn_bitsOf, rowValue_unflipped hr.nodup hsub, mul_left_comm _
      s.observable.coefficient] at hmean
    rw [Register.expectation?_eq_form hr hsub, hmean, ← Finset.mul_sum, hform, hkept, mul_div_assoc]

/-- `Y` is read with a flip on a qubit in `|0⟩`, for an observable of coefficient two. -/
theorem basis_change_is_unbiased_y :
    ∑ i ∈ Finset.range (2 ^ 1), ((Register.ofQubits (R := ℝ) [⟨0⟩]
        Truncation.exact).state.stateVector.getD i 0).normSq ≠ 0 ∧
      (Setting.ofObservable ((PauliString.single (R := ℝ) ⟨0⟩ .y).scaled 2)).IsCompatibleWith
        (Setting.ofObservable (PauliString.single ⟨0⟩ .y)) ∧
      ∃ b state,
        BasisChange.bindings? (Setting.ofObservable (PauliString.single (R := ℝ) ⟨0⟩ .y)) [true]
          [⟨0⟩] true = .ok b ∧
        ∑ i ∈ Finset.range (2 ^ 1), Mps.basisWeight state i = 1 ∧
        (Register.ofQubits (R := ℝ) [⟨0⟩] Truncation.exact).expectation?
            ((PauliString.single ⟨0⟩ .y).scaled 2) =
          .ok (∑ i ∈ Finset.range (2 ^ 1), state.basisWeight i *
            rowValue [⟨0⟩] ((PauliString.single ⟨0⟩ .y).scaled 2)
              (List.zipWith xor (Mps.shotRow 1 (List.range 1) i) [true])) := by
  -- On one qubit nothing is ever factored.
  let : ThinSvd ℝ := ⟨fun block => ⟨block, [], block⟩⟩
  have hnorm : ∑ i ∈ Finset.range (2 ^ 1), ((Register.ofQubits (R := ℝ) [⟨0⟩]
      Truncation.exact).state.stateVector.getD i 0).normSq ≠ 0 := by
    rw [show (Register.ofQubits (R := ℝ) [⟨0⟩] Truncation.exact).state = Mps.zero 1 from rfl,
      Mps.norm_zero 1]
    exact one_ne_zero
  have hs : (Setting.ofObservable
      ((PauliString.single (R := ℝ) ⟨0⟩ .y).scaled 2)).IsCompatibleWith
        (Setting.ofObservable (PauliString.single ⟨0⟩ .y)) := by
    constructor
    · decide
    · decide
  obtain ⟨b, circuit, state, hb, _, _, _, hone, _, hmean⟩ :=
    basis_change_is_unbiased (Register.ofQubits [⟨0⟩] Truncation.exact)
      (Setting.ofObservable (PauliString.single ⟨0⟩ .y))
      (Setting.ofObservable ((PauliString.single ⟨0⟩ .y).scaled 2)) [true] true
      (Register.wellFormed_ofQubits _ _) hnorm rfl rfl rfl hs
  exact ⟨hnorm, hs, b, state, hb, hone, hmean⟩

end PauliEstimation
