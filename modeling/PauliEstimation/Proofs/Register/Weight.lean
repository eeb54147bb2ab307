import PauliEstimation.Proofs.Exact.Outcome
import PauliEstimation.Proofs.Register.Shots
import PauliEstimation.Proofs.Register.Simulation

namespace PauliEstimation

open Matrix

theorem Gate.matrix_hadamard_unitary : hadamard.matrixᴴ * hadamard.matrix = 1 := by
  have hroot : ((√Scalar.half : ℝ) : ℂ) * ((√Scalar.half : ℝ) : ℂ) = 1 / 2 := by
    rw [← Complex.ofReal_mul, Real.mul_self_sqrt (by rw [Scalar.half_real]; positivity),
      Scalar.half_real]
    norm_num
  ext p q
  rw [matrix_hadamard, mul_apply, Fintype.sum_bool]
  cases p <;> cases q <;> simp [conjTranspose_apply, hroot] <;> norm_num

/-- A controlled flip only moves amplitudes. -/
theorem Gate.norm_onPair_cnot {n : Nat} {i j : Fin n} (h : i ≠ j) (v : (Fin n → Bool) → ℂ) :
    ∑ b, Complex.normSq (cnot.onPair i j v b) = ∑ b, Complex.normSq (v b) := by
  have hflip : Function.Involutive
      fun b : Fin n → Bool => Function.update b j (xor (b j) (b i)) := by
    intro b
    simp [Function.update_of_ne h]
  have hmoved : ∀ b, cnot.onPair i j v b = v (Function.update b j (xor (b j) (b i))) := by
    intro b
    simp [onPair, pairMatrix_cnot]
  simp only [hmoved]
  exact Equiv.sum_comp hflip.toPerm fun b => Complex.normSq (v b)

/-- A controlled phase only changes signs. -/
theorem Gate.norm_onPair_cz {n : Nat} (i j : Fin n) (v : (Fin n → Bool) → ℂ) :
    ∑ b, Complex.normSq (cz.onPair i j v b) = ∑ b, Complex.normSq (v b) := by
  refine Finset.sum_congr rfl fun b _ => ?_
  have hsigned : cz.onPair i j v b = (if b i && b j then -1 else 1) * v b := by
    simp [onPair, pairMatrix_cz]
  rw [hsigned]
  split <;> simp

/-- The qubit and the gate of an operation on one qubit whose exponent is a number. -/
def Operation.gate? {R : Type} [Scalar R] : Operation R → Option (Qubit × Gate R 2)
  | .power axis q (.value t) => some (q, Gate.power axis t)
  | .hadamard q => some (q, Gate.hadamard)
  | _ => none

theorem Operation.unitary_of_gate? {op : Operation ℝ} {q : Qubit} {u : Gate ℝ 2}
    (h : op.gate? = some (q, u)) : u.matrixᴴ * u.matrix = 1 := by
  unfold gate? at h
  split at h
  next axis _ t =>
    cases h
    exact Gate.matrix_power_unitary axis t
  next =>
    cases h
    exact Gate.matrix_hadamard_unitary
  next => cases h

theorem Operation.gate_of_phase {qubits : List Qubit} {op : Operation ℝ}
    (h : ∃ q ∈ qubits, ∃ t, op = .power .z q (.value t)) :
    ∃ q ∈ qubits, ∃ u, op.gate? = some (q, u) := by
  obtain ⟨q, hq, t, rfl⟩ := h
  exact ⟨q, hq, _, rfl⟩

namespace Mps

variable {psi psi' : Mps ℝ} {k : Nat}

theorem WellFormed.of_applyOne? {u : Gate ℝ 2} (h : psi.WellFormed)
    (hp : psi.applyOne? k u = .ok psi') : psi'.WellFormed := by
  obtain ⟨a, ha, hp⟩ := bind_eq_ok_iff.mp hp
  obtain rfl := Except.ok.inj hp
  exact isChain_set_rotate u h (getElem?_of_site? ha)

theorem WellFormed.of_applyPair? [ThinSvd ℝ] {u : Gate ℝ 4} {trunc : Truncation ℝ}
    (h : psi.WellFormed) (hp : psi.applyPair? k u trunc = .ok psi') : psi'.WellFormed := by
  obtain ⟨a, ha, hp⟩ := bind_eq_ok_iff.mp hp
  obtain ⟨b, hb, hp⟩ := bind_eq_ok_iff.mp hp
  obtain rfl := Except.ok.inj hp
  exact isChain_set_split _ trunc h (getElem?_of_site? ha) (getElem?_of_site? hb)

end Mps

namespace Register

section Runs

variable [ThinSvd ℝ] {r r' : Register ℝ} {sites : List Nat}

omit [ThinSvd ℝ] in
theorem wellFormed_of_applyOne? {q : Qubit} {u : Gate ℝ 2} (h : r.state.WellFormed)
    (hr : r.applyOne? q u = .ok (r', sites)) : r'.state.WellFormed := by
  obtain ⟨k, _, hr⟩ := bind_eq_ok_iff.mp hr
  obtain ⟨state, hstate, hr⟩ := bind_eq_ok_iff.mp hr
  cases hr
  exact h.of_applyOne? hstate

theorem wellFormed_of_applyPair? {a b : Qubit} {u : Gate ℝ 4} (h : r.state.WellFormed)
    (hr : r.applyPair? a b u = .ok (r', sites)) : r'.state.WellFormed := by
  obtain ⟨i, _, hr⟩ := bind_eq_ok_iff.mp hr
  obtain ⟨j, _, hr⟩ := bind_eq_ok_iff.mp hr
  split at hr
  next =>
    obtain ⟨state, hstate, hr⟩ := bind_eq_ok_iff.mp hr
    cases hr
    exact h.of_applyPair? hstate
  next =>
    split at hr
    next =>
      obtain ⟨state, hstate, hr⟩ := bind_eq_ok_iff.mp hr
      cases hr
      exact h.of_applyPair? hstate
    next => cases hr

theorem wellFormed_of_step? {op : Operation ℝ} (h : r.state.WellFormed)
    (hr : r.step? op = .ok (r', sites)) : r'.state.WellFormed := by
  cases op with
  | power axis q e =>
    obtain ⟨t, _, hr⟩ := bind_eq_ok_iff.mp hr
    exact wellFormed_of_applyOne? h hr
  | hadamard q => exact wellFormed_of_applyOne? h hr
  | cnot c t => exact wellFormed_of_applyPair? h hr
  | cz a b => exact wellFormed_of_applyPair? h hr
  | measure qs key =>
    cases hr
    exact h

theorem wellFormed_state_applyAll (h : r.state.WellFormed) (ops : List (Operation ℝ)) :
    (r.applyAll ops).1.state.WellFormed := by
  induction ops generalizing r with
  | nil => exact h
  | cons op ops ih =>
    unfold applyAll
    split
    next r' sites hstep => exact ih (wellFormed_of_step? h hstep)
    next => exact h

/-- A run keeps the layout and the shape, whatever the factorization does. -/
theorem WellFormed.applyAll (h : r.WellFormed) (ops : List (Operation ℝ)) :
    (r.applyAll ops).1.WellFormed ∧ (r.applyAll ops).1.qubits = r.qubits := by
  have hon := IsOn.applyAll ⟨rfl, h.size_eq⟩ ops
  refine ⟨⟨?_, ?_, wellFormed_state_applyAll h.state ops⟩, hon.qubits_eq⟩
  · rw [hon.qubits_eq]
    exact h.ascending
  · rw [hon.size_eq, hon.qubits_eq]

end Runs

section Norm

variable [ThinSvd ℝ] {r r' : Register ℝ} {sites : List Nat}

omit [ThinSvd ℝ] in
theorem norm_of_applyOne? {q : Qubit} {u : Gate ℝ 2} (h : r.WellFormed)
    (hu : u.matrixᴴ * u.matrix = 1) (hr : r.applyOne? q u = .ok (r', sites)) :
    ∑ b, Complex.normSq (r'.amplitude b) = ∑ b, Complex.normSq (r.amplitude b) := by
  obtain ⟨i, _, state, rfl, _, hamp⟩ := applyOne?_becomes h hr
  rw [hamp]
  refine norm_kron_mulVec (fun k => ?_) r.amplitude
  by_cases hk : k = i
  · subst hk
    rw [Function.update_self, hu]
  · rw [Function.update_of_ne hk, Pi.one_apply, conjTranspose_one, mul_one]

/-- An operation keeps the norm if its factorization is exact. -/
theorem norm_of_step? {op : Operation ℝ} (h : r.WellFormed)
    (hf : ∀ block, r.block? op = some block → (ThinSvd.factor block).IsLossless r.trunc block)
    (hr : r.step? op = .ok (r', sites)) :
    ∑ b, Complex.normSq (r'.amplitude b) = ∑ b, Complex.normSq (r.amplitude b) := by
  cases op with
  | power axis q e =>
    obtain ⟨t, _, hr⟩ := bind_eq_ok_iff.mp hr
    exact norm_of_applyOne? h (Gate.matrix_power_unitary axis t) hr
  | hadamard q => exact norm_of_applyOne? h Gate.matrix_hadamard_unitary hr
  | cnot c t =>
    obtain ⟨i, j, hne, _, _, state, rfl, _, hamp⟩ := applyPair?_becomes h hf hr
    rw [hamp]
    exact Gate.norm_onPair_cnot hne r.amplitude
  | cz a b =>
    obtain ⟨i, j, _, _, _, state, rfl, _, hamp⟩ := applyPair?_becomes h hf hr
    rw [hamp]
    exact Gate.norm_onPair_cz i j r.amplitude
  | measure qs key =>
    cases hr
    rfl

theorem norm_of_applyAll {ops : List (Operation ℝ)} (h : r.WellFormed) (hf : r.Lossless ops)
    (hr : r.applyAll ops = (r', none)) :
    ∑ b, Complex.normSq (r'.amplitude b) = ∑ b, Complex.normSq (r.amplitude b) := by
  induction ops generalizing r with
  | nil =>
    cases hr
    rfl
  | cons op ops ih =>
    obtain ⟨hblock, hrest⟩ := hf
    rw [applyAll] at hr
    split at hr
    next r₁ sites hstep =>
      obtain ⟨state, rfl, hstate, _⟩ := step?_becomes h hblock hstep
      exact (ih hstate (hrest _ _ hstep) hr).trans (norm_of_step? h hblock hstep)
    next => cases hr

/-- A run from all zeros whose factorizations are exact ends with norm one. -/
theorem norm_of_applyCircuit {qubits : List Qubit} {trunc : Truncation ℝ} {c : Circuit ℝ}
    (hf : (ofQubits qubits trunc).Lossless c.operations)
    (hr : (ofQubits qubits trunc).applyCircuit c = (r, none)) :
    ∑ i ∈ Finset.range (2 ^ r.qubits.length), (r.state.stateVector.getD i 0).normSq = 1 := by
  obtain ⟨state, rfl, hstate, _⟩ := applyAll_becomes (wellFormed_ofQubits qubits trunc) hf hr
  rw [Mps.norm_stateVector hstate.state hstate.size_eq]
  refine (norm_of_applyAll (wellFormed_ofQubits qubits trunc) hf hr).trans ?_
  rw [amplitude_ofQubits]
  simp [Pi.single_apply, apply_ite Complex.normSq]

end Norm

/-- The mean of a product of quantities read off the qubits, before norming. -/
noncomputable def weight (r : Register ℝ) (d : Qubit → Bool → ℝ) : ℝ :=
  ∑ b, Complex.normSq (r.amplitude b) * ∏ k, d (r.qubits.get k) (b k)

/-- A gate on a qubit leaves alone what is read off the qubit. -/
def Commutes (d : Qubit → Bool → ℝ) (q : Qubit) (u : Gate ℝ 2) : Prop :=
  u.matrixᴴ * diagonal (fun bit => (d q bit : ℂ)) * u.matrix = diagonal fun bit => (d q bit : ℂ)

theorem exists_applyOne? {r : Register ℝ} {q : Qubit} (u : Gate ℝ 2) (h : r.WellFormed)
    (hq : q ∈ r.qubits) :
    ∃ state sites, r.applyOne? q u = .ok ({ r with state := state }, sites) ∧
      WellFormed { r with state := state } ∧
      ∀ d, Commutes d q u → weight { r with state := state } d = r.weight d := by
  obtain ⟨k, hk, rfl⟩ := List.mem_iff_getElem.mp hq
  obtain ⟨a, ha⟩ := h.exists_site hk
  refine ⟨_, _, applyOne?_of_getElem? u h (List.getElem?_eq_getElem hk) ha, h.set_rotate u ha, ?_⟩
  intro d hd
  have hamp : amplitude { r with state := ⟨r.state.sites.set k (a.rotate u)⟩ } =
      kron (Function.update 1 (⟨k, hk⟩ : Fin r.qubits.length) u.matrix) *ᵥ r.amplitude :=
    Mps.amplitude_set_rotate (k := ⟨k, hk⟩) u h.state ha
  unfold weight
  rw [hamp]
  refine sum_normSq_kron_mulVec_eq (fun j => ?_) r.amplitude
  by_cases hj : j = ⟨k, hk⟩
  · subst hj
    rw [Function.update_self]
    exact hd
  · rw [Function.update_of_ne hj, Pi.one_apply, conjTranspose_one, one_mul, mul_one]

/-- Gates on qubits of a register come to their end and keep what commutes with all of them. -/
theorem exists_applyAll_gates [ThinSvd ℝ] {r : Register ℝ} {gates : List (Operation ℝ)}
    (h : r.WellFormed)
    (hg : ∀ op ∈ gates, ∃ q ∈ r.qubits, ∃ u, op.gate? = some (q, u)) :
    ∃ state, r.applyAll gates = ({ r with state := state }, none) ∧
      WellFormed { r with state := state } ∧
      ∀ d, (∀ op ∈ gates, ∀ q u, op.gate? = some (q, u) → Commutes d q u) →
        weight { r with state := state } d = r.weight d := by
  induction gates generalizing r with
  | nil => exact ⟨r.state, rfl, h, fun _ _ => rfl⟩
  | cons op gates ih =>
    obtain ⟨⟨q, hq, u, hop⟩, hg⟩ := List.forall_mem_cons.mp hg
    obtain ⟨state, sites, hone, hstate, hweight⟩ := exists_applyOne? u h hq
    have hstep : r.step? op = .ok ({ r with state := state }, sites) := by
      rw [← hone]
      unfold Operation.gate? at hop
      split at hop
      next =>
        cases hop
        rfl
      next =>
        cases hop
        rfl
      next => cases hop
    obtain ⟨state', hrun, hstate', hweight'⟩ := ih hstate hg
    refine ⟨state', ?_, hstate', fun d hd => ?_⟩
    · rw [applyAll, hstep]
      exact hrun
    · obtain ⟨hd, hds⟩ := List.forall_mem_cons.mp hd
      exact (hweight' d hds).trans (hweight d (hd q u hop))

/-- One if a measured qubit shows the bit that it has in a basis index. A qubit that is not measured
may show either. -/
def agreeing (qubits measured : List Qubit) (index : Nat) (q : Qubit) (bit : Bool) : ℝ :=
  if q ∈ measured → bit = bitAt qubits index q then 1 else 0

theorem commutes_agreeing_of_notMem {qubits measured : List Qubit} {q : Qubit} {u : Gate ℝ 2}
    (index : Nat) (hq : q ∉ measured) (hu : u.matrixᴴ * u.matrix = 1) :
    Commutes (agreeing qubits measured index) q u := by
  have hone : diagonal (fun bit => (agreeing qubits measured index q bit : ℂ)) = 1 := by
    simp [agreeing, hq]
  rw [Commutes, hone, mul_one, hu]

/-- A phase commutes with whatever is read off its qubit. -/
theorem commutes_phase (d : Qubit → Bool → ℝ) (q : Qubit) (t : ℝ) :
    Commutes d q (Gate.power .z t) := by
  have hdiagonal : (Gate.power .z t).matrix =
      diagonal fun bit => if bit then (Amplitude.phase t).toComplex else 1 := by
    ext p r
    cases p <;> cases r <;> simp [Gate.matrix_apply, Gate.entry, Gate.power, Gate.ofEntries]
  have hcomm : diagonal (fun bit => (d q bit : ℂ)) * (Gate.power .z t).matrix =
      (Gate.power .z t).matrix * diagonal fun bit => (d q bit : ℂ) := by
    rw [hdiagonal]
    exact (commute_diagonal _ _).eq
  rw [Commutes, mul_assoc, hcomm, ← mul_assoc, Gate.matrix_power_unitary, one_mul]

section Agreement

variable {r : Register ℝ} {measured : List Qubit}

/-- The weight of agreement with a basis index sums over the indices that show the same row. -/
theorem weight_agreeing (h : r.WellFormed) (hm : ∀ q ∈ measured, q ∈ r.qubits) (index : Nat) :
    r.weight (agreeing r.qubits measured index) =
      ∑ i ∈ (Finset.range (2 ^ r.qubits.length)).filter
        (fun i => measured.map (bitAt r.qubits i) = measured.map (bitAt r.qubits index)),
        (r.state.stateVector.getD i 0).normSq := by
  have hsum := Mps.sum_normSq_stateVector h.state h.size_eq fun b =>
    ∏ k, agreeing r.qubits measured index (r.qubits.get k) (b k)
  refine hsum.symm.trans ?_
  rw [Finset.sum_filter]
  refine Finset.sum_congr rfl fun i _ => ?_
  have hagree : (∀ k ∈ Finset.univ, r.qubits.get k ∈ measured →
      Mps.bitsOf r.qubits.length i k = bitAt r.qubits index (r.qubits.get k)) ↔
      measured.map (bitAt r.qubits i) = measured.map (bitAt r.qubits index) := by
    rw [List.map_inj_left]
    constructor
    · intro hk q hq
      obtain ⟨k, hlt, rfl⟩ := List.mem_iff_getElem.mp (hm q hq)
      have hbit := hk ⟨k, hlt⟩ (Finset.mem_univ _) hq
      exact (bitAt_get h.nodup i ⟨k, hlt⟩).trans hbit
    · intro hq k _ hk
      rw [← hq _ hk, bitAt_get h.nodup]
      rfl
  simp only [agreeing, Finset.prod_boole, hagree]
  split <;> simp

theorem weight_agreeing_all (h : r.WellFormed) {index : Nat}
    (hi : index < 2 ^ r.qubits.length) :
    r.weight (agreeing r.qubits r.qubits index) = (r.state.stateVector.getD index 0).normSq := by
  rw [weight_agreeing h fun _ hq => hq]
  refine Finset.sum_eq_single_of_mem index (by simp [hi]) fun i hi' hne => absurd ?_ hne
  obtain ⟨hlt, hrow⟩ := Finset.mem_filter.mp hi'
  refine Mps.bitsOf_injective (Finset.mem_range.mp hlt) hi (funext fun k => ?_)
  have hbit := List.map_inj_left.mp hrow _ (List.getElem_mem k.isLt)
  rw [← List.get_eq_getElem, bitAt_get h.nodup, bitAt_get h.nodup] at hbit
  exact hbit

/-- The probability that a joint measurement shows a row. -/
noncomputable def rowProbability (r : Register ℝ) (measured : List Qubit) (row : List Bool) : ℝ :=
  ∑ i ∈ (Finset.range (2 ^ r.qubits.length)).filter
    (fun i => measured.map (bitAt r.qubits i) = row), r.state.basisWeight i

theorem weight_one (h : r.WellFormed) :
    r.weight (fun _ _ => 1) =
      ∑ i ∈ Finset.range (2 ^ r.state.size), (r.state.stateVector.getD i 0).normSq := by
  rw [h.size_eq, Mps.norm_stateVector h.state h.size_eq]
  simp [weight, amplitude]

theorem commutes_one {q : Qubit} {u : Gate ℝ 2} (hu : u.matrixᴴ * u.matrix = 1) :
    Commutes (fun _ _ => 1) q u := by
  simpa [Commutes] using hu

/-- Registers of equal weights show every row with the same probability. -/
theorem rowProbability_eq {state : Mps ℝ} (h : r.WellFormed)
    (hstate : WellFormed { r with state := state }) (hm : ∀ q ∈ measured, q ∈ r.qubits)
    (hone : weight { r with state := state } (fun _ _ => 1) = r.weight fun _ _ => 1)
    (hagree : ∀ index, weight { r with state := state } (agreeing r.qubits measured index) =
      r.weight (agreeing r.qubits measured index)) (row : List Bool) :
    rowProbability { r with state := state } measured row = r.rowProbability measured row := by
  rw [weight_one h, weight_one hstate] at hone
  simp only [rowProbability, Mps.basisWeight]
  rw [← Finset.sum_div, ← Finset.sum_div, hone]
  congr 1
  -- a row that is shown at all is the row of a basis index
  rcases Finset.eq_empty_or_nonempty ((Finset.range (2 ^ r.qubits.length)).filter
    fun i => measured.map (bitAt r.qubits i) = row) with hnone | ⟨index, hindex⟩
  · rw [hnone, Finset.sum_empty, Finset.sum_empty]
  · obtain ⟨_, rfl⟩ := Finset.mem_filter.mp hindex
    rw [← weight_agreeing h hm, ← hagree]
    exact (weight_agreeing hstate hm index).symm

end Agreement

section Suffix

variable [ThinSvd ℝ] {r : Register ℝ} {gates : List (Operation ℝ)}

/-- Phases leave the table alone that shots are drawn from. -/
theorem exists_applyAll_phases (h : r.WellFormed)
    (hg : ∀ op ∈ gates, ∃ q ∈ r.qubits, ∃ t, op = .power .z q (.value t)) :
    ∃ state, r.applyAll gates = ({ r with state := state }, none) ∧ state.size = r.state.size ∧
      Mps.cumulative state.stateVector = Mps.cumulative r.state.stateVector := by
  obtain ⟨state, hrun, hstate, hweight⟩ :=
    exists_applyAll_gates h fun op hop => Operation.gate_of_phase (hg op hop)
  have hsize : state.size = r.state.size := hstate.size_eq.trans h.size_eq.symm
  refine ⟨state, hrun, hsize, Mps.cumulative_congr ?_ fun i hi => ?_⟩
  · rw [Mps.size_stateVector hstate.state, Mps.size_stateVector h.state, hsize]
  · have hlt : i < 2 ^ r.qubits.length := by
      rwa [Mps.size_stateVector hstate.state, hstate.size_eq] at hi
    rw [← weight_agreeing_all h hlt]
    refine (weight_agreeing_all hstate hlt).symm.trans (hweight _ ?_)
    intro op hop q u hu
    obtain ⟨_, _, t, rfl⟩ := hg op hop
    cases hu
    exact commutes_phase _ q t

/-- Gates on other qubits than the measured ones leave the law of the rows alone. -/
theorem exists_applyAll_elsewhere {measured : List Qubit} (h : r.WellFormed)
    (hm : ∀ q ∈ measured, q ∈ r.qubits)
    (hg : ∀ op ∈ gates, ∃ q ∈ r.qubits, q ∉ measured ∧ ∃ u, op.gate? = some (q, u)) :
    ∃ state, r.applyAll gates = ({ r with state := state }, none) ∧
      ∀ row, rowProbability { r with state := state } measured row =
        r.rowProbability measured row := by
  have hgate : ∀ op ∈ gates, ∃ q ∈ r.qubits, ∃ u, op.gate? = some (q, u) := by
    intro op hop
    obtain ⟨q, hq, _, hu⟩ := hg op hop
    exact ⟨q, hq, hu⟩
  obtain ⟨state, hrun, hstate, hweight⟩ := exists_applyAll_gates h hgate
  refine ⟨state, hrun, rowProbability_eq h hstate hm ?_ fun index => ?_⟩
  · exact hweight _ fun op _ q u hu => commutes_one (Operation.unitary_of_gate? hu)
  · refine hweight _ fun op hop q u hu => ?_
    obtain ⟨q', _, hq', u', hu'⟩ := hg op hop
    cases hu.symm.trans hu'
    exact commutes_agreeing_of_notMem index hq' (Operation.unitary_of_gate? hu)

end Suffix

end Register

end PauliEstimation
