import PauliEstimation.Circuit
import PauliEstimation.Proofs.Exact.PauliPower
import PauliEstimation.Proofs.Exact.Split

namespace PauliEstimation

open Matrix

/-- The bit of a qubit, the strings being indexed by the positions of the qubits. -/
def bitAt (qubits : List Qubit) (b : Fin qubits.length → Bool) (q : Qubit) : Bool :=
  if h : qubits.idxOf q < qubits.length then b ⟨qubits.idxOf q, h⟩ else false

/-- A matrix on one of the qubits. -/
noncomputable def onQubit (qubits : List Qubit) (q : Qubit) (m : Matrix Bool Bool ℂ) :
    Matrix (Fin qubits.length → Bool) (Fin qubits.length → Bool) ℂ :=
  kron fun k => if qubits.get k = q then m else 1

/-- The string with a target bit inverted where a control bit is set. -/
def controlledFlip (qubits : List Qubit) (control target : Qubit)
    (b : Fin qubits.length → Bool) : Fin qubits.length → Bool := fun k =>
  if qubits.get k = target then xor (b k) (bitAt qubits b control) else b k

namespace Operation

/-- The matrix of an operation. An exponent that is still a symbol has none. -/
noncomputable def matrix (qubits : List Qubit) :
    Operation ℝ → Matrix (Fin qubits.length → Bool) (Fin qubits.length → Bool) ℂ
  | power axis q (.value t) =>
    let g := Complex.exp ((Real.pi * t : ℝ) * Complex.I)
    onQubit qubits q (((Scalar.half : ℝ) : ℂ) • ((1 + g) • 1 + (1 - g) • axis.matrix))
  | power _ _ (.symbol _) => 0
  | hadamard q =>
    onQubit qubits q (Matrix.of fun p r => ((if p && r then -1 else 1) * √Scalar.half : ℝ))
  | cnot control target =>
    Matrix.of fun b c => if b = controlledFlip qubits control target c then 1 else 0
  | cz p q => diagonal fun b => if bitAt qubits b p && bitAt qubits b q then -1 else 1
  | measure _ _ => 1

end Operation

/-- All zeros, then the matrix of each operation in turn. -/
noncomputable def Circuit.denseVector (c : Circuit ℝ) (qubits : List Qubit) :
    (Fin qubits.length → Bool) → ℂ :=
  c.operations.foldl (fun v op => op.matrix qubits *ᵥ v) (Pi.single (fun _ => false) 1)

variable {qubits : List Qubit}

theorem bitAt_get (hn : qubits.Nodup) (b : Fin qubits.length → Bool) (k : Fin qubits.length) :
    bitAt qubits b (qubits.get k) = b k := by
  have hk : qubits.idxOf (qubits.get k) = k := hn.idxOf_getElem k k.isLt
  unfold bitAt
  rw [dif_pos (hk ▸ k.isLt)]
  exact congrArg b (Fin.ext hk)

theorem onQubit_get (hn : qubits.Nodup) (k : Fin qubits.length) (m : Matrix Bool Bool ℂ) :
    onQubit qubits (qubits.get k) m = kron (Function.update 1 k m) := by
  unfold onQubit
  congr 1
  funext j
  have hj : qubits.get j = qubits.get k ↔ j = k :=
    ⟨fun h => Fin.ext (hn.getElem_inj_iff.mp h), congrArg _⟩
  simp only [hj, Function.update_apply, Pi.one_apply]

theorem controlledFlip_get (hn : qubits.Nodup) (i j : Fin qubits.length)
    (b : Fin qubits.length → Bool) :
    controlledFlip qubits (qubits.get i) (qubits.get j) b =
      Function.update b j (xor (b j) (b i)) := by
  funext k
  have hk : qubits.get k = qubits.get j ↔ k = j :=
    ⟨fun h => Fin.ext (hn.getElem_inj_iff.mp h), congrArg _⟩
  simp only [controlledFlip, bitAt_get hn, hk, Function.update_apply]
  split
  next h => rw [h]
  next => rfl

namespace Gate

theorem matrix_hadamard : hadamard.matrix = Matrix.of fun p r : Bool =>
    (((if p && r then -1 else 1) * √Scalar.half : ℝ) : ℂ) := by
  have htwo : (Scalar.ofNat 2 : ℝ) = 2 := Nat.cast_ofNat
  ext p q
  cases p <;> cases q <;>
    simp [matrix_apply, entry, hadamard, ofEntries, Scalar.sqrt, Scalar.half_real, htwo]

theorem pairMatrix_cnot (p q : Bool) (x : Bool × Bool) :
    cnot.pairMatrix (p, q) x = if x = (p, xor q p) then 1 else 0 := by
  obtain ⟨p', q'⟩ := x
  cases p <;> cases q <;> cases p' <;> cases q' <;> simp [pairMatrix, entry, cnot]

theorem pairMatrix_cz (p q : Bool) (x : Bool × Bool) :
    cz.pairMatrix (p, q) x = if x = (p, q) then (if p && q then -1 else 1) else 0 := by
  have hneg : (⟨-1, 0⟩ : Amplitude ℝ).toComplex = -1 := Complex.ext rfl (by simp)
  obtain ⟨p', q'⟩ := x
  cases p <;> cases q <;> cases p' <;> cases q' <;> simp [pairMatrix, entry, cz, hneg]

end Gate

theorem controlledFlip_controlledFlip (hn : qubits.Nodup) {i j : Fin qubits.length} (h : i ≠ j)
    (b : Fin qubits.length → Bool) :
    controlledFlip qubits (qubits.get i) (qubits.get j)
      (controlledFlip qubits (qubits.get i) (qubits.get j) b) = b := by
  simp only [controlledFlip_get hn, Function.update_self, Function.update_of_ne h,
    Function.update_idem, Bool.xor_assoc, Bool.xor_self, Bool.xor_false, Function.update_eq_self]

namespace Operation

variable {i j : Fin qubits.length}

theorem matrix_power_get (hn : qubits.Nodup) (axis : Pauli) (t : ℝ) :
    (power axis (qubits.get i) (.value t)).matrix qubits =
      kron (Function.update 1 i (Gate.power axis t).matrix) := by
  have hhalf : ((Scalar.half : ℝ) : ℂ) = 1 / 2 := by simp [Scalar.half_real]
  rw [matrix, onQubit_get hn, Gate.matrix_power, Amplitude.toComplex_phase, hhalf]
  congr 2
  module

theorem matrix_hadamard_get (hn : qubits.Nodup) :
    (hadamard (qubits.get i)).matrix qubits =
      kron (Function.update 1 i Gate.hadamard.matrix) := by
  rw [matrix, onQubit_get hn, Gate.matrix_hadamard]

/-- A controlled flip is its own inverse, so it moves the amplitude of every string's flip there. -/
theorem matrix_cnot_get_mulVec (hn : qubits.Nodup) (h : i ≠ j)
    (v : (Fin qubits.length → Bool) → ℂ) :
    (cnot (qubits.get i) (qubits.get j)).matrix qubits *ᵥ v = Gate.cnot.onPair i j v := by
  funext b
  have hflip : ∀ c, (b = controlledFlip qubits (qubits.get i) (qubits.get j) c) ↔
      c = controlledFlip qubits (qubits.get i) (qubits.get j) b := by
    intro c
    constructor
    · rintro rfl
      exact (controlledFlip_controlledFlip hn h c).symm
    · rintro rfl
      exact (controlledFlip_controlledFlip hn h b).symm
  simp only [matrix, Matrix.mulVec, dotProduct, Matrix.of_apply, hflip, ite_mul, one_mul, zero_mul,
    Finset.sum_ite_eq', Finset.mem_univ, if_true]
  simp only [controlledFlip_get hn, Gate.onPair, Gate.pairMatrix_cnot, ite_mul, one_mul, zero_mul,
    Finset.sum_ite_eq', Finset.mem_univ, if_true, Function.update_eq_self]

theorem matrix_cz_get_mulVec (hn : qubits.Nodup) (v : (Fin qubits.length → Bool) → ℂ) :
    (cz (qubits.get i) (qubits.get j)).matrix qubits *ᵥ v = Gate.cz.onPair i j v := by
  funext b
  rw [matrix, Matrix.mulVec_diagonal, bitAt_get hn, bitAt_get hn]
  simp only [Gate.onPair, Gate.pairMatrix_cz, ite_mul, zero_mul, Finset.sum_ite_eq',
    Finset.mem_univ, if_true, Function.update_eq_self, neg_mul, one_mul]

end Operation

end PauliEstimation
