import PauliEstimation.Svd.Length
import PauliEstimation.Svd.Rotation

/-!
Small real blocks made diagonal by plane rotations. Two rotations from the left and one from the
right clear a pair of entries that mirror each other. Passes over all pairs go on until every
entry off the diagonal is negligible.
-/

namespace PauliEstimation

/-- A real block under reduction: the sum over `i` and `j` of `rows (i, j)` times `left i` times
`right j`, where the vectors of each side are orthonormal. -/
structure RotatedBlock where
  rows : Array (Array Float)
  left : Array (Array Float)
  right : Array (Array Float)
  /-- The largest size seen on the diagonal. -/
  scale : Float
  /-- Whether the running pass has found nothing to clear. -/
  settled : Bool

namespace RotatedBlock

def entry (b : RotatedBlock) (i j : Nat) : Float := (b.rows.getD i #[]).getD j 0.0

/-- The block with the given diagonal and the given entries right below it. -/
def ofLowerBidiagonal (diagonal below : Array Float) : RotatedBlock :=
  let n := diagonal.size
  let rows := Array.ofFn fun i : Fin n => Array.ofFn fun j : Fin n =>
    if i = j then diagonal.getD j 0.0
    else if i.val = j.val + 1 then below.getD j 0.0
    else 0.0
  let units := Rotation.unitVectors n
  ⟨rows, units, units, diagonal.foldl grown 0.0, true⟩

/-- The size up to which an entry off the diagonal is negligible: two units in the last place of the
largest diagonal entry, and every number too small for full precision. -/
def threshold (b : RotatedBlock) : Float :=
  larger (2.0 * 2.220446049250313e-16 * b.scale) 2.2250738585072014e-308

/-- Clears the entries `(p, q)` and `(q, p)` unless both are negligible. -/
def clear (b : RotatedBlock) (q p : Nat) : RotatedBlock :=
  let limit := b.threshold
  if (b.entry p q).abs > limit || (b.entry q p).abs > limit then
    let first := Rotation.symmetrizing (b.entry q q) (b.entry q p) (b.entry p q) (b.entry p p)
    let second := Rotation.diagonalizing (first.first (b.entry q q) (b.entry p q))
      (first.first (b.entry q p) (b.entry p p)) (first.second (b.entry q p) (b.entry p p))
    let both := second.after first
    let b : RotatedBlock :=
      { b with
        rows := second.turnPlaces q p (both.turn q p b.rows)
        left := both.turn q p b.left
        right := second.turn q p b.right
        settled := false }
    { b with scale := grown (grown b.scale (b.entry p p)) (b.entry q q) }
  else b

/-- One pass over all pairs of places. -/
def pass (b : RotatedBlock) : RotatedBlock :=
  (List.range b.rows.size).foldl (fun b p => (List.range p).foldl (fun b q => b.clear q p) b)
    { b with settled := true }

def reduce : Nat → RotatedBlock → RotatedBlock
  | 0, b => b
  | fuel + 1, b =>
    let b := b.pass
    if b.settled then b else reduce fuel b

/-- Far more passes than quadratic convergence needs. -/
def passLimit : Nat := 100

end RotatedBlock

end PauliEstimation
