namespace PauliEstimation

structure MeasurementConfig where
  /-- The ceiling on repetitions times sweep points of one sampler call. -/
  maxRepetitionsPerJob : Nat := 3000000
  /-- Pair every request with a flipped twin and fold both into one accumulator. -/
  symmetrize : Bool := false
  /-- Give up after this many rounds; without it a measurement may go on for ever. -/
  maxRounds : Option Nat := none
deriving DecidableEq, Repr, Inhabited

end PauliEstimation
