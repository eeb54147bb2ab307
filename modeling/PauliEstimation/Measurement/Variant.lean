import PauliEstimation.Measurement.Accumulator
import PauliEstimation.Measurement.BasisChange

namespace PauliEstimation

structure Variant (R : Type) where
  /-- The position of the specification and of its accumulator. -/
  index : Nat
  spec : Spec R
  /-- The deliberate flips, one for each qubit. -/
  flips : List Bool

namespace Variant

variable {R : Type}

/-- The flips in use, in the order of submission. -/
def flipChoices (symmetrize : Bool) : List Bool := if symmetrize then [false, true] else [false]

def ofSpec (qubitCount : Nat) (symmetrize : Bool) (index : Nat) (spec : Spec R) :
    List (Variant R) :=
  (flipChoices symmetrize).map fun flip => ⟨index, spec, List.replicate qubitCount flip⟩

theorem length_ofSpec (qubitCount : Nat) (symmetrize : Bool) (index : Nat) (spec : Spec R) :
    (ofSpec qubitCount symmetrize index spec).length = if symmetrize then 2 else 1 := by
  cases symmetrize <;> rfl

/-- The variants of the listed specifications. -/
def ofPending? (specs : List (Spec R)) (qubitCount : Nat) (symmetrize : Bool)
    (pending : List Nat) : Except Fault (List (Variant R)) := do
  let variants ← pending.mapM fun k => match specs[k]? with
    | some spec => .ok (ofSpec qubitCount symmetrize k spec)
    | none => .error (.outOfRange k specs.length)
  return variants.flatten

/-- The repetitions of each variant when a specification is to get the given number. -/
def share (symmetrize : Bool) (repetitions : Nat) : Nat :=
  if symmetrize then repetitions / 2 else repetitions

/-- The rotations of a variant, then the bindings of the circuit's own symbols. -/
def bindings? [Scalar R] (v : Variant R) (qubits : List Qubit) (needsInitial : Bool) :
    Except (MeasurementError R) (Bindings R) := do
  return (← BasisChange.bindings? v.spec.max v.flips qubits needsInitial).extend v.spec.bindings

/-- One sweep point for each variant, in order. -/
def sweep? [Scalar R] (variants : List (Variant R)) (qubits : List Qubit) (needsInitial : Bool) :
    Except (MeasurementError R) (Sweep R) := do
  return ⟨← variants.mapM fun v => v.bindings? qubits needsInitial⟩

end Variant

end PauliEstimation
