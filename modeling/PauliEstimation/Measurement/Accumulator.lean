import PauliEstimation.BitMatrix
import PauliEstimation.Measurement.Error
import PauliEstimation.Measurement.Statistics
import PauliEstimation.Sweep

namespace PauliEstimation

/-- A padded setting to measure, with the bindings of the circuit's own symbols. -/
structure Spec (R : Type) where
  max : Setting R
  bindings : Bindings R

structure Accumulator (R : Type) where
  spec : Spec R
  settings : List (Setting R)
  columns : QubitMap Nat
  bits : BitMatrix
  /-- The sizes of the batches, in the order of their arrival. -/
  batches : List Nat

/-- The statistics of one setting. The variance is that of the mean. -/
structure SettingResult (R : Type) where
  setting : Setting R
  mean : Option R
  variance : Option R
  repetitions : Nat

def SettingResult.stderr {R : Type} [Scalar R] (r : SettingResult R) : Option R :=
  r.variance.map Scalar.sqrt

namespace Accumulator

variable {R : Type}

/-- No shots yet, for as many columns as there are mapped qubits. -/
def empty (spec : Spec R) (settings : List (Setting R)) (columns : QubitMap Nat) : Accumulator R :=
  ⟨spec, settings, columns, BitMatrix.empty columns.size, []⟩

def repetitions (a : Accumulator R) : Nat := a.bits.rowCount

/-- Takes in one batch of rows whose deliberate flips have been undone. -/
def consume? (a : Accumulator R) (batch : BitMatrix) : Except Fault (Accumulator R) := do
  return { a with bits := ← a.bits.append? batch, batches := a.batches ++ [batch.rowCount] }

variable [Scalar R]

/-- The sign of a row on some columns: minus one when an odd number of their bits is set. -/
def rowSign (columns : List Nat) (row : List Bool) : R :=
  if columns.foldl (fun parity c => parity != row.getD c false) false then -1 else 1

/-- The value of a setting's observable in every shot. -/
def values? (a : Accumulator R) (s : Setting R) : Except Fault (List R) := do
  let columns ← s.observable.qubits.mapM fun q => match a.columns.get? q with
    | some c => .ok c
    | none => .error (.unknownQubit q)
  match columns.find? (a.bits.width ≤ ·) with
  | some c => if a.bits.isEmpty then return [] else throw (.outOfRange c a.bits.width)
  | none => return a.bits.rows.map fun row => s.observable.coefficient * rowSign columns row

/-- The values of a setting that this accumulator lists. -/
def listedValues? (a : Accumulator R) (s : Setting R) : Except (MeasurementError R) (List R) :=
  if a.settings.contains s then liftFault (a.values? s) else .error (.unknownSetting s)

def mean? (a : Accumulator R) (s : Setting R) : Except (MeasurementError R) (Option R) := do
  return Statistics.mean? (← a.listedValues? s)

/-- The variance of the mean. -/
def variance? (a : Accumulator R) (s : Setting R) : Except (MeasurementError R) (Option R) := do
  let values ← a.listedValues? s
  return (Statistics.variance? values).map (· / Scalar.ofNat values.length)

def stderr? (a : Accumulator R) (s : Setting R) : Except (MeasurementError R) (Option R) := do
  return (← a.variance? s).map Scalar.sqrt

/-- The sample covariances between the per-shot values of all listed settings. -/
def covariance? (a : Accumulator R) : Except Fault (List (List (Option R))) := do
  return Statistics.covariances (← a.settings.mapM a.values?)

/-- The statistics of every listed setting, in order. -/
def results? (a : Accumulator R) : Except (MeasurementError R) (List (SettingResult R)) :=
  a.settings.mapM fun s => do
    return ⟨s, ← a.mean? s, ← a.variance? s, a.repetitions⟩

end Accumulator

end PauliEstimation
