import PauliEstimation.Svd.MulAdd

namespace PauliEstimation

/-- A column of floating-point amplitudes. -/
abbrev Column := List (Amplitude Float)

/-- The larger of two sizes; an undefined size counts as the largest. -/
def larger (m x : Float) : Float := if x > m || x.isNaN then x else m

namespace Column

/-- The squared length of a column that is multiplied by a factor first. -/
def squares (factor : Float) (a : Column) : Float :=
  a.foldl (fun s e =>
    let x := e.re * factor
    let y := e.im * factor
    RoundedFloat.mulAdd y y (RoundedFloat.mulAdd x x s)) 0.0

/-- The factor for long columns, a power of two. -/
def shrinking : Float := 1.4916681462400413e-154

/-- The factor for short columns, the reciprocal of `shrinking`. -/
def enlarging : Float := 6.703903964971298e153

/-- A length whose square is too large or too small for full precision is taken in other units. -/
def length (a : Column) : Float :=
  let s := squares 1.0 a
  if s ≥ enlarging * enlarging then Float.sqrt (squares shrinking a) * enlarging
  else if s ≤ shrinking * shrinking then Float.sqrt (squares enlarging a) * shrinking
  else Float.sqrt s

/-- Adds a multiple of one column to another. -/
def addScaled (a : Column) (x : Amplitude Float) (b : Column) : Column :=
  a.zipWith (fun s t => t.mulAdd x s) b

/-- Takes a multiple of one column from another. -/
def subScaled (a : Column) (x : Amplitude Float) (b : Column) : Column := a.addScaled (-x) b

end Column

namespace Amplitude

def modulus (a : Amplitude Float) : Float := Column.length [a]

/-- The reciprocal, found in units of the larger part. -/
def inverse (a : Amplitude Float) : Amplitude Float :=
  let unit := 1.0 / larger a.re.abs a.im.abs
  let b := a.scale unit
  b.conj.scale (unit * (1.0 / b.normSq))

/-- The amplitude of modulus one in the same direction; one for zero. -/
def direction (a : Amplitude Float) : Amplitude Float :=
  if a == 0 then 1 else a.scale (1.0 / a.modulus)

end Amplitude

end PauliEstimation
