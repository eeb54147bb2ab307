import PauliEstimation.Scalar

namespace PauliEstimation.Statistics

variable {R : Type} [Scalar R]

def average (xs : List R) : R := Scalar.sum xs / Scalar.ofNat xs.length

def mean? (xs : List R) : Option R := if xs.isEmpty then none else some (average xs)

/-- The differences from the average. -/
def centered (xs : List R) : List R :=
  let m := average xs
  xs.map (· - m)

/-- The sample covariance of two lists that are already centered. -/
def centeredCovariance? (xs ys : List R) : Option R :=
  if xs.length < 2 then none
  else some (Scalar.sum (List.zipWith (· * ·) xs ys) / Scalar.ofNat (xs.length - 1))

def variance? (xs : List R) : Option R :=
  let ds := centered xs
  centeredCovariance? ds ds

/-- All sample covariances of a family of lists. -/
def covariances (family : List (List R)) : List (List (Option R)) :=
  let ds := family.map centered
  ds.map fun xs => ds.map fun ys => centeredCovariance? xs ys

/-- A sum with an undefined part is undefined. -/
def add? (x y : Option R) : Option R := do return (← x) + (← y)

def sum? (xs : List (Option R)) : Option R := xs.foldl add? (some 0)

end PauliEstimation.Statistics
