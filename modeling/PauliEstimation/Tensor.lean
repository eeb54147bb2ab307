import PauliEstimation.Fault
import PauliEstimation.Gate
import PauliEstimation.RowMajor

namespace PauliEstimation

/-- Amplitudes by left bond, physical index and right bond, stored with the right bond running
fastest. -/
structure Tensor (R : Type) where
  left : Nat
  phys : Nat
  right : Nat
  cells : Array (Amplitude R)

namespace Tensor

variable {R : Type} [Scalar R]

def offset (t : Tensor R) (l p r : Nat) : Nat := (l * t.phys + p) * t.right + r

/-- The tensor with the given entries. -/
@[specialize] def ofFn (left phys right : Nat) (f : Nat → Nat → Nat → Amplitude R) : Tensor R :=
  ⟨left, phys, right, Array.ofFn fun k : Fin (left * phys * right) =>
    f (k / right / phys) (k / right % phys) (k % right)⟩

def zeros (left phys right : Nat) : Tensor R := ofFn left phys right fun _ _ _ => 0

/-- The cell at the offset of an index triple. Only the offset has to be in range. -/
def get? (t : Tensor R) (l p r : Nat) : Except Fault (Amplitude R) :=
  match t.cells[t.offset l p r]? with
  | some a => .ok a
  | none => .error (.outOfRange (t.offset l p r) t.cells.size)

def set? (t : Tensor R) (l p r : Nat) (a : Amplitude R) : Except Fault (Tensor R) :=
  if t.offset l p r < t.cells.size then
    .ok { t with cells := t.cells.setIfInBounds (t.offset l p r) a }
  else .error (.outOfRange (t.offset l p r) t.cells.size)

/-- The entry at an index triple, zero past the end. -/
def entry (t : Tensor R) (l p r : Nat) : Amplitude R := t.cells.getD (t.offset l p r) 0

/-- Entries in range are given by the function. -/
theorem entry_ofFn {left phys right l p r : Nat} (f : Nat → Nat → Nat → Amplitude R)
    (hl : l < left) (hp : p < phys) (hr : r < right) :
    (ofFn left phys right f).entry l p r = f l p r := by
  have hlt := rowMajor_lt (rowMajor_lt hl hp) hr
  simp [entry, ofFn, offset, Array.getD_eq_getD_getElem?, hlt, rowMajor_div hr, rowMajor_mod hr,
    rowMajor_div hp, rowMajor_mod hp]

/-- Acts with a gate on the physical index. -/
def rotate (u : Gate R 2) (t : Tensor R) : Tensor R :=
  ofFn t.left t.phys t.right fun l p r =>
    u.entry p 0 * t.entry l 0 r + u.entry p 1 * t.entry l 1 r

end Tensor

end PauliEstimation
