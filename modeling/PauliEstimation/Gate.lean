import PauliEstimation.Amplitude
import PauliEstimation.Pauli

namespace PauliEstimation

/-- Entry `(i, j)` is the amplitude of `i` in the image of `j`. A two-qubit index is twice the bit of the
first qubit plus the bit of the second. -/
abbrev Gate (R : Type) (d : Nat) := Fin d → Fin d → Amplitude R

namespace Gate

variable {R : Type} [Scalar R]

def ofEntries (a b c d : Amplitude R) : Gate R 2
  | 0, 0 => a
  | 0, 1 => b
  | 1, 0 => c
  | 1, 1 => d

/-- The entry in a row and a column, zero past the end. -/
def entry {d : Nat} (u : Gate R d) (i j : Nat) : Amplitude R :=
  if h : i < d ∧ j < d then u ⟨i, h.1⟩ ⟨j, h.2⟩ else 0

def hadamard : Gate R 2 :=
  let s : R := 1 / Scalar.sqrt (Scalar.ofNat 2)
  ofEntries (.ofReal s) (.ofReal s) (.ofReal s) (.ofReal (-s))

/-- The power `t` of a Pauli operator: the phase `e^{iπt}` on its eigenspace of minus one. -/
def power (axis : Pauli) (t : R) : Gate R 2 :=
  let g := Amplitude.phase t
  let a := (1 + g).scale Scalar.half
  let b := (1 - g).scale Scalar.half
  match axis with
  | .x => ofEntries a b b a
  | .y => ofEntries a (-Amplitude.i * b) (Amplitude.i * b) a
  | .z => ofEntries 1 0 0 g

def pauli (axis : Pauli) : Gate R 2 := power axis 1

/-- Flips the second qubit where the first is one. -/
def cnot : Gate R 4 := fun i j =>
  if (i, j) ∈ [((0 : Fin 4), (0 : Fin 4)), (1, 1), (2, 3), (3, 2)] then 1 else 0

/-- Changes the sign where both qubits are one. -/
def cz : Gate R 4 := fun i j =>
  if i = j then (if i = 3 then ⟨-1, 0⟩ else 1) else 0

/-- The index of a pair of bits after their exchange. -/
def exchange : Fin 4 → Fin 4
  | 0 => 0
  | 1 => 2
  | 2 => 1
  | 3 => 3

/-- The same gate with the roles of its two qubits exchanged. -/
def swapped (u : Gate R 4) : Gate R 4 := fun i j => u (exchange i) (exchange j)

end Gate

end PauliEstimation
