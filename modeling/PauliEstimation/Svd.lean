import PauliEstimation.Amplitude
import PauliEstimation.RowMajor

namespace PauliEstimation

/-- A block of amplitudes, stored row by row. -/
structure Block (R : Type) where
  rows : Nat
  cols : Nat
  cells : Array (Amplitude R)

namespace Block

variable {R : Type} [Scalar R]

@[specialize] def ofFn (rows cols : Nat) (f : Nat → Nat → Amplitude R) : Block R :=
  ⟨rows, cols, Array.ofFn fun k : Fin (rows * cols) => f (k / cols) (k % cols)⟩

/-- The entry in a row and a column, zero past the end. -/
def entry (b : Block R) (i j : Nat) : Amplitude R := b.cells.getD (i * b.cols + j) 0

/-- Entries in range are given by the function. -/
theorem entry_ofFn {rows cols i j : Nat} (f : Nat → Nat → Amplitude R) (hi : i < rows)
    (hj : j < cols) : (ofFn rows cols f).entry i j = f i j := by
  have hlt := rowMajor_lt hi hj
  simp [entry, ofFn, Array.getD_eq_getD_getElem?, hlt, rowMajor_div hj, rowMajor_mod hj]

end Block

/-- Factors of a block: its entry `(i, j)` is the sum over `k` of
`left (i, k) * values k * conj (right (j, k))`. -/
structure Svd (R : Type) where
  left : Block R
  values : List R
  right : Block R

/-- A method of factoring blocks, with singular values in descending order. -/
class ThinSvd (R : Type) where
  factor : Block R → Svd R

end PauliEstimation
