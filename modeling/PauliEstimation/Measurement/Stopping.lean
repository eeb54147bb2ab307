import PauliEstimation.Measurement.Accumulator

namespace PauliEstimation

/-- A criterion may keep a state from one question to the next, and may have no answer. -/
abbrev Criterion (R κ : Type) := Accumulator R → κ → Except Fault Int × κ

/-- A word of 64 bits read as a signed number. -/
def signedWord (n : Nat) : Int := Int.bmod n 18446744073709551616

/-- The difference of two words read as signed numbers, which wraps as they do. -/
def signedDifference (m n : Nat) : Int :=
  Int.bmod (signedWord m - signedWord n) 18446744073709551616

/-- A criterion that neither reads nor changes the state. -/
def Criterion.ofFunction {R κ : Type} (f : Accumulator R → Except Fault Int) : Criterion R κ :=
  fun a s => (f a, s)

def defaultChunk : Nat := 10000

/-- Stops once the variance of the estimate, averaged over its terms, is within a bound. -/
structure VariancePolicy (R : Type) where
  bound : R
  chunk : Nat

/-- Stops once a fixed number of repetitions has been collected. -/
structure RepetitionPolicy where
  total : Nat
  chunk : Nat

/-- The variance of the sum of all settings' means, per setting. -/
def Accumulator.variancePerTerm {R : Type} [Scalar R] (a : Accumulator R)
    (covariances : List (List (Option R))) : Option R :=
  (Statistics.sum? covariances.flatten).map fun total =>
    total / Scalar.ofNat a.repetitions / Scalar.ofNat covariances.length

/-- Whether a defined number is within a bound. -/
def isWithin {R : Type} [Scalar R] (bound : R) (x : Option R) : Bool :=
  x.any fun x => decide (x ≤ bound)

/-- Asks for a chunk while the variance is undefined or above the bound. An accumulator without
settings, or with a setting on a qubit it has no column for, is done after its first chunk. A column
past the width of the shots is a fault. -/
def VariancePolicy.more {R : Type} [Scalar R] (p : VariancePolicy R) (a : Accumulator R) :
    Except Fault Int :=
  if a.repetitions = 0 then .ok (signedWord p.chunk)
  else match a.covariance? with
    | .error (.outOfRange position size) => .error (.outOfRange position size)
    | .error _ => .ok 0
    | .ok [] => .ok 0
    | .ok covariances =>
      .ok (if isWithin p.bound (a.variancePerTerm covariances) then 0 else signedWord p.chunk)

def RepetitionPolicy.more {R : Type} (p : RepetitionPolicy) (a : Accumulator R) : Int :=
  let todo := signedDifference p.total a.repetitions
  if todo ≤ 0 then 0 else min todo (signedWord p.chunk)

/-- The policies that come with the library. -/
inductive StoppingPolicy (R : Type) where
  | variance (policy : VariancePolicy R)
  | repetitions (policy : RepetitionPolicy)

namespace StoppingPolicy

variable {R : Type} [Scalar R]

def more (p : StoppingPolicy R) (a : Accumulator R) : Except Fault Int :=
  match p with
  | variance p => p.more a
  | repetitions p => .ok (p.more a)

def criterion {κ : Type} (p : StoppingPolicy R) : Criterion R κ := Criterion.ofFunction p.more

end StoppingPolicy

end PauliEstimation
