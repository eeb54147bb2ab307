import PauliEstimation.Scalar
import PauliEstimation.Decimal.Shortest
import PauliEstimation.Fault
import PauliEstimation.QubitMap

namespace PauliEstimation

inductive Pauli where
  | x
  | y
  | z
deriving DecidableEq, Repr, Inhabited

def Pauli.text : Pauli → String
  | .x => "X"
  | .y => "Y"
  | .z => "Z"

/-- A coefficient times one Pauli operator on each listed qubit and the identity elsewhere. -/
structure PauliString (R : Type) where
  coefficient : R
  factors : QubitMap Pauli

namespace PauliString

variable {R : Type}

instance [BEq R] : BEq (PauliString R) :=
  ⟨fun s t => s.coefficient == t.coefficient && decide (s.factors = t.factors)⟩

def identity (coefficient : R) : PauliString R := ⟨coefficient, QubitMap.empty⟩

/-- Multiplies a factor in on a qubit that the string does not act on yet. -/
def with? (s : PauliString R) (q : Qubit) (p : Pauli) : Except Fault (PauliString R) :=
  if s.factors.contains q then .error (.overlappingFactor q)
  else .ok { s with factors := s.factors.insert q p }

def ofFactors? (coefficient : R) (factors : List (Qubit × Pauli)) : Except Fault (PauliString R) :=
  factors.foldlM (fun s f => s.with? f.1 f.2) (identity coefficient)

/-- The product with coefficient one; a repeated qubit keeps its last factor. -/
def ofList [One R] (factors : List (Qubit × Pauli)) : PauliString R :=
  ⟨1, QubitMap.ofList factors⟩

def single [One R] (q : Qubit) (p : Pauli) : PauliString R := ⟨1, QubitMap.empty.insert q p⟩

def scaled [Mul R] (s : PauliString R) (factor : R) : PauliString R :=
  { s with coefficient := s.coefficient * factor }

def get? (s : PauliString R) (q : Qubit) : Option Pauli := s.factors.get? q

def contains (s : PauliString R) (q : Qubit) : Bool := s.factors.contains q

def qubits (s : PauliString R) : List Qubit := s.factors.keys

/-- The number of qubits the string acts on. -/
def weight (s : PauliString R) : Nat := s.factors.size

def text (s : PauliString Float) : String :=
  let coefficient := Decimal.shortest s.coefficient
  if s.factors.isEmpty then coefficient ++ "*I"
  else s.factors.toList.foldl (fun t f => t ++ "*" ++ f.2.text ++ f.1.text) coefficient

end PauliString

end PauliEstimation
