import PauliEstimation.Qubit

namespace PauliEstimation

inductive Fault where
  /-- A symbolic exponent has no value. -/
  | unresolvedSymbol (name : String)
  | unknownQubit (qubit : Qubit)
  /-- Two-qubit gates act on neighbouring sites of a register only. -/
  | nonAdjacent (a b : Qubit)
  | overlappingFactor (qubit : Qubit)
  | missingKey (key : String)
  | raggedRow (expected got : Nat)
  | registerTooLarge (size : Nat)
  /-- A position at or past the end of what it points into. -/
  | outOfRange (position size : Nat)
deriving DecidableEq, Repr

def Fault.message : Fault → String
  | .unresolvedSymbol name => "parameter `" ++ name ++ "` has no value in the resolver"
  | .unknownQubit qubit => qubit.text ++ " is not part of the register"
  | .nonAdjacent a b =>
    "two-qubit gate on " ++ a.text ++ " and " ++ b.text ++ " needs register-adjacent qubits"
  | .overlappingFactor qubit => qubit.text ++ " already carries a factor"
  | .missingKey key => "measurement key `" ++ key ++ "` not found"
  | .raggedRow expected got =>
    "row of width " ++ toString got ++ " does not fit a " ++ toString expected ++
      "-column bit matrix"
  | .registerTooLarge size =>
    "register of " ++ toString size ++ " qubits is too large for dense sampling"
  | .outOfRange position size =>
    "position " ++ toString position ++ " is outside the " ++ toString size ++ " available"

end PauliEstimation
