namespace PauliEstimation

/-- The rotation of a plane by an angle of the given cosine and sine. -/
structure Rotation where
  cos : Float
  sin : Float

namespace Rotation

/-- The rotation by nothing. -/
def still : Rotation := ⟨1.0, 0.0⟩

/-- One rotation after another. -/
def after (r s : Rotation) : Rotation :=
  ⟨r.cos * s.cos - r.sin * s.sin, r.cos * s.sin + r.sin * s.cos⟩

/-- The first place of a vector of the plane after the rotation. -/
@[inline] def first (r : Rotation) (x y : Float) : Float := r.cos * x + r.sin * y

/-- The second place of a vector of the plane after the rotation. -/
@[inline] def second (r : Rotation) (x y : Float) : Float := r.cos * y - r.sin * x

/-- The rotation of the rows of `(a, b; c, d)` after which the off-diagonal entries are equal. -/
def symmetrizing (a b c d : Float) : Rotation :=
  let gap := c - b
  if gap == 0.0 then still
  else
    let slope := (a + d) / gap
    let sin := 1.0 / Float.sqrt (slope * slope + 1.0)
    let sin := if sin == 0.0 then 1.0 / slope.abs else sin
    ⟨slope * sin, sin⟩

/-- The rotation of rows and columns that makes `(a, b; b, d)` diagonal, by at most an eighth of a
turn. -/
def diagonalizing (a b d : Float) : Rotation :=
  let twice := 2.0 * b.abs
  if twice == 0.0 then still
  else
    let tau := (a - d) * (1.0 / twice)
    let root := Float.sqrt (tau * tau + 1.0)
    let slope := if tau > 0.0 then 1.0 / (tau + root) else 1.0 / (tau - root)
    let cos := 1.0 / Float.sqrt (slope * slope + 1.0)
    ⟨cos, (if b > 0.0 then slope else -slope) * cos⟩

/-- The rotation that takes `(x, y)` to the first axis: to its negative side from the second axis,
and to its positive side from everywhere else. -/
def clearing (x y : Float) : Rotation :=
  if y == 0.0 then ⟨if x < 0.0 then -1.0 else 1.0, 0.0⟩
  else if x == 0.0 then ⟨0.0, if y < 0.0 then 1.0 else -1.0⟩
  else if x.abs > y.abs then
    let slope := y / x
    let root := Float.sqrt (slope * slope + 1.0)
    let cos := 1.0 / (if x < 0.0 then -root else root)
    ⟨cos, slope * cos⟩
  else
    let slope := x / y
    let root := Float.sqrt (slope * slope + 1.0)
    let sin := 1.0 / (if y < 0.0 then -root else root)
    ⟨slope * sin, sin⟩

/-- Rotates the plane of two vectors in a table. -/
def turn (r : Rotation) (q p : Nat) (table : Array (Array Float)) : Array (Array Float) :=
  let a := table.getD q #[]
  let b := table.getD p #[]
  (table.setIfInBounds q (Array.zipWith r.first a b)).setIfInBounds p (Array.zipWith r.second a b)

/-- Rotates the plane of two places in every vector of a table. -/
def turnPlaces (r : Rotation) (q p : Nat) (table : Array (Array Float)) : Array (Array Float) :=
  table.map fun v =>
    let x := v.getD q 0.0
    let y := v.getD p 0.0
    (v.setIfInBounds q (r.first x y)).setIfInBounds p (r.second x y)

/-- The unit vectors of a space. -/
def unitVectors (n : Nat) : Array (Array Float) :=
  Array.ofFn fun k : Fin n => Array.ofFn fun i : Fin n => if i = k then 1.0 else 0.0

end Rotation

/-- The larger of two sizes, where an undefined one does not count. -/
def grown (m x : Float) : Float := if x.abs > m then x.abs else m

end PauliEstimation
