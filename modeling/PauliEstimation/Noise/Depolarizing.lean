import PauliEstimation.Mps
import PauliEstimation.RandomStream

namespace PauliEstimation.Mps

variable {R : Type} [Scalar R]

def depolarizeContext : List UInt8 := utf8 "DEPOL_1Q"

/-- The kick that a draw selects: each axis takes a third of the probability `p`. -/
def kick? (p x : R) : Option Pauli :=
  if p ≤ x then none
  else
    let ratio := x / p
    if ratio < 1 / Scalar.ofNat 3 then some .x
    else if ratio < Scalar.ofNat 2 / Scalar.ofNat 3 then some .y
    else some .z

/-- Kicks site `k` with probability `p`. A probability of zero or less draws nothing. -/
def depolarize (psi : Mps R) (k : Nat) (p : R) (s : RandomStream) :
    Except Fault (Mps R) × RandomStream :=
  if p ≤ 0 then (.ok psi, s)
  else
    let (x, s) := s.uniform depolarizeContext
    match kick? p x with
    | none => (.ok psi, s)
    | some axis => (psi.applyOne? k (Gate.pauli axis), s)

end PauliEstimation.Mps
