import PauliEstimation.Svd.LowerBidiagonal
import PauliEstimation.Svd.RotatedBlock

namespace PauliEstimation

/-- A singular value with its left and right vectors. -/
structure SingularTriple where
  value : Float
  left : Array Float
  right : Array Float

namespace SingularTriple

/-- A negative value changes sign together with its left vector. -/
def positiveByLeft (t : SingularTriple) : SingularTriple :=
  if t.value < 0.0 then { t with value := -t.value, left := t.left.map fun x => -x } else t

/-- A negative value changes sign together with its right vector. -/
def positiveByRight (t : SingularTriple) : SingularTriple :=
  if t.value < 0.0 then { t with value := -t.value, right := t.right.map fun x => -x } else t

/-- Brings the largest value from a place on to that place. Zeros stay where they are. -/
def bringLargest (ts : Array SingularTriple) (k : Nat) : Array SingularTriple :=
  let best := (List.range (ts.size - k)).foldl (fun (best : Float × Nat) d =>
    match ts[k + d]? with
    | some t => if t.value > best.1 then (t.value, k + d) else best
    | none => best) (0.0, k)
  ts.swapIfInBounds k best.2

def descending (ts : Array SingularTriple) : Array SingularTriple :=
  (List.range ts.size).foldl bringLargest ts

/-- The triples of a block reduced by rotations of pairs of places. -/
def ofRotatedBlock (b : RotatedBlock) : Array SingularTriple :=
  let b := b.reduce RotatedBlock.passLimit
  descending <| Array.ofFn fun k : Fin b.rows.size =>
    positiveByLeft ⟨b.entry k k, b.left.getD k #[], b.right.getD k #[]⟩

/-- The triples of a block reduced by sweeps, in units of its largest entry. -/
def ofLowerBidiagonal (b : LowerBidiagonal) : Array SingularTriple :=
  let unit := b.largest
  let b := if unit == 0.0 then b else (b.inUnits unit).reduce b.sweepLimit
  let triples := descending <| Array.ofFn fun k : Fin b.diagonal.size =>
    positiveByRight ⟨b.d k, b.left.getD k #[], b.right.getD k #[]⟩
  triples.map fun t => { t with value := t.value * unit }

/-- The largest number of columns for which rotations of all pairs of places are used. -/
def pairwiseLimit : Nat := 4

/-- The triples of the real block with a given diagonal and given entries right below it. -/
def ofDiagonals (diagonal below : Array Float) : Array SingularTriple :=
  if diagonal.size ≤ pairwiseLimit then
    ofRotatedBlock (RotatedBlock.ofLowerBidiagonal diagonal below)
  else ofLowerBidiagonal (LowerBidiagonal.ofDiagonals diagonal below)

end SingularTriple

end PauliEstimation
