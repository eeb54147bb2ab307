import PauliEstimation.BitMatrix
import PauliEstimation.Circuit
import PauliEstimation.Sweep

namespace PauliEstimation

structure SweepRequest (R : Type) where
  program : Circuit R
  sweep : Sweep R
  repetitions : Nat

/-- The bits recorded at one sweep point, by measurement key. -/
structure PointResult (R : Type) where
  bindings : Bindings R
  measurements : Bindings BitMatrix

/-- A sampler may keep a state from one request to the next. It should give one result for each
point, in sweep order, with as many rows as repetitions under each key; a failure is a text. -/
abbrev Sampler (R σ : Type) := SweepRequest R → σ → Except String (List (PointResult R)) × σ

namespace Sampler

/-- The same sampler, keeping a list of all requests, the latest first. -/
def recording {R σ : Type} (sampler : Sampler R σ) :
    Sampler R (List (SweepRequest R) × σ) := fun request s =>
  let (answer, state) := sampler request s.2
  (answer, request :: s.1, state)

end Sampler

end PauliEstimation
