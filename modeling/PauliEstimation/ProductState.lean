import PauliEstimation.Pauli

namespace PauliEstimation

/-- The eigenstate of a Pauli operator for the eigenvalue one or minus one. -/
structure Eigenstate where
  axis : Pauli
  positive : Bool
deriving DecidableEq, Repr, Inhabited

namespace Eigenstate

/-- The computational state `|0⟩`. -/
def zero : Eigenstate := ⟨.z, true⟩

def text (s : Eigenstate) : String := (if s.positive then "+" else "-") ++ s.axis.text

end Eigenstate

abbrev ProductState := QubitMap Eigenstate

namespace ProductState

/-- `|0⟩` on every listed qubit. -/
def zeros (qs : List Qubit) : ProductState := QubitMap.ofList (qs.map (·, Eigenstate.zero))

/-- Adds a factor on a qubit that has none yet. -/
def with? (s : ProductState) (q : Qubit) (e : Eigenstate) : Except Fault ProductState :=
  if s.contains q then .error (.overlappingFactor q) else .ok (s.insert q e)

def ofFactors? (factors : List (Qubit × Eigenstate)) : Except Fault ProductState :=
  factors.foldlM (fun s f => with? s f.1 f.2) QubitMap.empty

def isAllZero (s : ProductState) : Bool := s.values.all (· = Eigenstate.zero)

def text (s : ProductState) : String :=
  " * ".intercalate (s.toList.map fun f => f.2.text ++ f.1.text)

end ProductState

end PauliEstimation
