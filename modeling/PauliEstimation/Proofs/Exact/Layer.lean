import PauliEstimation.Proofs.Exact.OneQubit
import PauliEstimation.Proofs.Register.Layout

namespace PauliEstimation.Register

open Matrix

/-- The amplitudes of a register, by the bits of its qubits. -/
noncomputable def amplitude (r : Register ℝ) : (Fin r.qubits.length → Bool) → ℂ :=
  r.state.amplitude

theorem kron_layer_cons {qubits rest : List Qubit} {k : Fin qubits.length}
    (hn : qubits.Nodup) (hk : qubits.get k ∉ rest) (u : Qubit → Matrix Bool Bool ℂ) :
    (kron fun j : Fin qubits.length => if qubits.get j ∈ rest then u (qubits.get j) else 1) *
        kron (Function.update 1 k (u (qubits.get k))) =
      kron fun j : Fin qubits.length =>
        if qubits.get j ∈ qubits.get k :: rest then u (qubits.get j) else 1 := by
  rw [kron_mul]
  congr 1
  funext j
  by_cases hj : j = k
  · subst hj
    rw [Function.update_self, if_neg hk, if_pos List.mem_cons_self, one_mul]
  · have hne : qubits.get j ≠ qubits.get k := by
      intro he
      exact hj (Fin.ext ((hn.getElem_inj_iff).mp he))
    have hmem : qubits.get j ∈ qubits.get k :: rest ↔ qubits.get j ∈ rest := by
      rw [List.mem_cons, or_iff_right hne]
    rw [Function.update_of_ne hj, Pi.one_apply, mul_one]
    simp only [hmem]

/-- Powers on distinct qubits of a register, one after the other. -/
theorem applyAll_powers [ThinSvd ℝ] {r : Register ℝ} (axis : Pauli) (e : Qubit → ℝ)
    {layer : List Qubit} (rest : List (Operation ℝ)) (h : r.WellFormed) (hn : layer.Nodup)
    (hsub : ∀ q ∈ layer, q ∈ r.qubits) :
    ∃ state : Mps ℝ, WellFormed { r with state := state } ∧
      r.applyAll ((layer.map fun q => .power axis q (.value (e q))) ++ rest) =
        applyAll { r with state := state } rest ∧
      amplitude { r with state := state } =
        (kron fun k : Fin r.qubits.length =>
          if r.qubits.get k ∈ layer then (Gate.power axis (e (r.qubits.get k))).matrix else 1) *ᵥ
            r.amplitude := by
  induction layer generalizing r with
  | nil =>
    refine ⟨r.state, h, rfl, ?_⟩
    simp only [List.not_mem_nil, if_false]
    rw [show (kron fun _ : Fin r.qubits.length => (1 : Matrix Bool Bool ℂ)) = 1 from kron_one,
      Matrix.one_mulVec]
  | cons q layer ih =>
    obtain ⟨hq, hlayer⟩ := List.nodup_cons.mp hn
    obtain ⟨k, hk, rfl⟩ := List.mem_iff_getElem.mp (hsub q (by simp))
    obtain ⟨a, ha⟩ := h.exists_site hk
    have hstep := applyOne?_of_getElem? (Gate.power axis (e r.qubits[k])) h
      (List.getElem?_eq_getElem hk) ha
    obtain ⟨state, hstate, hrun, hamp⟩ := ih
      (h.set_rotate (Gate.power axis (e r.qubits[k])) ha) hlayer
      fun p hp => hsub p (List.mem_cons_of_mem _ hp)
    refine ⟨state, hstate, ?_, ?_⟩
    · rw [List.map_cons, List.cons_append, applyAll]
      simp only [step?, Exponent.value?, bind, Except.bind, hstep]
      exact hrun
    · have hrotate : amplitude { r with state :=
          ⟨r.state.sites.set k (a.rotate (Gate.power axis (e r.qubits[k])))⟩ } =
          kron (Function.update 1 (⟨k, hk⟩ : Fin r.qubits.length)
            (Gate.power axis (e r.qubits[k])).matrix) *ᵥ r.amplitude :=
        Mps.amplitude_set_rotate (k := ⟨k, hk⟩) _ h.state ha
      rw [hamp, hrotate, Matrix.mulVec_mulVec]
      congr 1
      exact kron_layer_cons (k := ⟨k, hk⟩) h.nodup hq fun q => (Gate.power axis (e q)).matrix

theorem applyAll_layer [ThinSvd ℝ] {r : Register ℝ} (axis : Pauli) (e : Qubit → ℝ)
    (rest : List (Operation ℝ)) (h : r.WellFormed) :
    ∃ state : Mps ℝ, WellFormed { r with state := state } ∧
      r.applyAll ((r.qubits.map fun q => .power axis q (.value (e q))) ++ rest) =
        applyAll { r with state := state } rest ∧
      amplitude { r with state := state } =
        (kron fun k : Fin r.qubits.length => (Gate.power axis (e (r.qubits.get k))).matrix) *ᵥ
          r.amplitude := by
  obtain ⟨state, hstate, hrun, hamp⟩ := applyAll_powers axis e rest h h.nodup fun _ hq => hq
  refine ⟨state, hstate, hrun, ?_⟩
  rw [hamp]
  congr 2
  funext k
  exact if_pos (List.getElem_mem k.isLt)

end PauliEstimation.Register
