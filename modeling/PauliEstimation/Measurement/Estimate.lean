import PauliEstimation.Decimal.Fixed
import PauliEstimation.Measurement.Accumulator

namespace PauliEstimation

/-- A value with its standard error; either may be undefined for lack of shots. -/
structure Estimate (R : Type) where
  value : Option R
  stderr : Option R

namespace Estimate

variable {R : Type} [Scalar R]

/-- Adds the settings of one accumulator to a value and a variance. -/
def addAccumulator? (value variance : Option R) (a : Accumulator R) :
    Except (MeasurementError R) (Option R × Option R) := do
  let means ← a.settings.mapM a.mean?
  let covariances ← liftFault a.covariance?
  let total := Statistics.sum? covariances.flatten
  return (means.foldl Statistics.add? value,
    Statistics.add? variance (total.map (· / Scalar.ofNat a.repetitions)))

/-- The sum of all means over all accumulators. -/
def ofAccumulators? (accumulators : List (Accumulator R)) :
    Except (MeasurementError R) (Estimate R) := do
  let (value, variance) ← accumulators.foldlM (fun sums a => addAccumulator? sums.1 sums.2 a)
    (some 0, some 0)
  return ⟨value, variance.map Scalar.sqrt⟩

/-- Six decimal places; what is undefined is written as such. -/
def fixedText (x : Option Float) : String := (x.map (Decimal.fixed 6)).getD "NaN"

def text (e : Estimate Float) : String := fixedText e.value ++ " ± " ++ fixedText e.stderr

end Estimate

end PauliEstimation
