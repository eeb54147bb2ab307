import PauliEstimation.Svd.Reflector

namespace PauliEstimation

/-- One row of a reduced block, with the reflections that cleared its column and its row. -/
structure BidiagonalRow where
  diagonal : Amplitude Float
  /-- The entry right of the diagonal, zero in the last row. -/
  beside : Amplitude Float
  left : Reflector
  right : Reflector

namespace BidiagonalRow

/-- The sum of columns, each taken with its own factor. -/
def combination (zero : Column) (columns : List Column) (factors : List (Amplitude Float)) :
    Column :=
  (columns.zip factors).foldl (fun s e => Column.addScaled s e.2 e.1) zero

/-- Takes the first column and the first row off a block, with what the reflections leave of the
other columns. Both reflections are applied to those in one pass. -/
def split (first : Column) (rest : List Column) : BidiagonalRow × List Column :=
  let (u, diagonal) := Reflector.clearing first
  let tails := rest.map List.tail
  let ys := rest.map u.component
  let row := (rest.zip ys).map fun e => (e.1.headD 0 - e.2).conj
  let (v, beside) := Reflector.clearing row
  let vs := 1 :: v.tail
  let moved := row.headD 0 - beside
  let sum := combination (first.tail.map fun _ => 0) tails row
  let sum := if moved == 0 then sum
    else (Column.subScaled sum beside (tails.headD [])).map (· * moved.inverse)
  let overlap := (ys.zip vs).foldl (fun s e => e.1.mulAdd e.2 s) 0
  let z := (Column.subScaled sum overlap u.tail).map (Amplitude.scale v.weight)
  (⟨diagonal, beside.conj, u, v⟩,
    (tails.zip (ys.zip vs)).map fun e =>
      Column.subScaled (Column.subScaled e.1 e.2.1 u.tail) e.2.2.conj z)

theorem length_split_le (first : Column) (rest : List Column) :
    (split first rest).2.length ≤ rest.length := by
  simp only [split, List.length_map, List.length_zip]
  omega

def ofColumns : List Column → List BidiagonalRow
  | [] => []
  | first :: rest =>
    (split first rest).1 :: ofColumns (split first rest).2
termination_by columns => columns.length
decreasing_by
  have := length_split_le first rest
  simp only [List.length_cons]
  omega

/-- The phases of a row and of a column that make the entries of a reduced block real. -/
structure Phases where
  row : Amplitude Float
  column : Amplitude Float

/-- Phases row by row, given the phase of the first column. -/
def phases : Amplitude Float → List BidiagonalRow → List Phases
  | _, [] => []
  | q, b :: rest =>
    let p := (b.diagonal * q).direction
    ⟨p, q⟩ :: phases (p.conj * b.beside).direction.conj rest

end BidiagonalRow

end PauliEstimation
