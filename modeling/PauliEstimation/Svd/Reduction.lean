import PauliEstimation.Svd
import PauliEstimation.Svd.Bidiagonal
import PauliEstimation.Svd.SingularTriple

/-!
Singular values of floating-point blocks. A block is reduced to a real bidiagonal square by
reflections and phases, the square is made diagonal by rotations, and the vectors of the square are
carried back. Both factors have orthonormal columns, also where singular values vanish.
-/

namespace PauliEstimation.Reduction

/-- Singular values in descending order, with the columns of the left and the right factor. -/
structure Triples where
  values : List Float
  left : List Column
  right : List Column

/-- A real column with phases put back on. -/
def phased (phases : List (Amplitude Float)) (a : Array Float) : Column :=
  phases.zipWith (fun p x => p.scale x) a.toList

/-- Reflects all entries but the first. -/
def restoreBelow (reflectors : List Reflector) : Column → Column
  | [] => []
  | head :: tail => head :: Reflector.restore reflectors tail

/-- Factors a block of no more columns than rows. The triples are those of the transpose of what the
reflections leave, so left and right change places. -/
def factorReduced (rows : Nat) (columns : List Column) : Triples :=
  let reduced := BidiagonalRow.ofColumns columns
  let phases := BidiagonalRow.phases 1 reduced
  let triples := (SingularTriple.ofDiagonals (reduced.map fun r => r.diagonal.modulus).toArray
    (reduced.map fun r => r.beside.modulus).toArray).toList
  let padding := List.replicate (rows - columns.length) 0
  { values := triples.map (·.value)
    left := triples.map fun t =>
      Reflector.restore (reduced.map (·.left)) (phased (phases.map (·.row)) t.right ++ padding)
    right := triples.map fun t =>
      restoreBelow (reduced.map (·.right)) (phased (phases.map (·.column)) t.left) }

/-- A block of many more rows than columns is made triangular first. -/
def factorTall (rows : Nat) (columns : List Column) : Triples :=
  if 11 * columns.length < 6 * rows then
    let (reflectors, square) := Reflector.triangular columns
    let triples := factorReduced columns.length square
    let padding := List.replicate (rows - columns.length) 0
    { triples with left := triples.left.map fun a => Reflector.restore reflectors (a ++ padding) }
  else factorReduced rows columns

def blockOfColumns (rows : Nat) (columns : List Column) : Block Float :=
  let table := (columns.map List.toArray).toArray
  Block.ofFn rows table.size fun i j => (table.getD j #[]).getD i 0

def undefined : Float := 0.0 / 0.0

/-- The factors of a block with an entry that is no finite number: undefined throughout. -/
def undefinedFactors (b : Block Float) : Svd Float :=
  let k := Nat.min b.rows b.cols
  { left := Block.ofFn b.rows k fun _ _ => ⟨undefined, undefined⟩
    values := List.replicate k undefined
    right := Block.ofFn b.cols k fun _ _ => ⟨undefined, undefined⟩ }

def isFinite (b : Block Float) : Bool := b.cells.all fun e => e.re.isFinite && e.im.isFinite

/-- The entries of a block by column. -/
def columns (b : Block Float) : List Column :=
  (List.range b.cols).map fun j => (List.range b.rows).map fun i => b.entry i j

/-- The entries of the conjugate transpose of a block by column. -/
def conjugateRows (b : Block Float) : List Column :=
  (List.range b.rows).map fun i => (List.range b.cols).map fun j => (b.entry i j).conj

/-- A wide block is factored through its conjugate transpose. -/
def factor (b : Block Float) : Svd Float :=
  if !isFinite b then undefinedFactors b
  else if b.cols ≤ b.rows then
    let t := factorTall b.rows (columns b)
    ⟨blockOfColumns b.rows t.left, t.values, blockOfColumns b.cols t.right⟩
  else
    let t := factorTall b.cols (conjugateRows b)
    ⟨blockOfColumns b.rows t.right, t.values, blockOfColumns b.cols t.left⟩

instance : ThinSvd Float := ⟨factor⟩

end PauliEstimation.Reduction
