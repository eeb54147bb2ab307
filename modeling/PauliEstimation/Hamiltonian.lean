import PauliEstimation.Pauli

namespace PauliEstimation

variable {R : Type} [Scalar R]

/-- The values of a list that differ from zero, with their positions. -/
def nonzero (xs : List R) : List (Nat × R) :=
  (xs.zipIdx.map fun e => (e.2, e.1)).filter fun e => !(e.2 == 0)

/-- The coupling `weight` of one axis between site `k` and the next. -/
def bond (k : Nat) (axis : Pauli) (weight : R) : PauliString R :=
  (PauliString.ofList [(⟨k⟩, axis), (⟨k + 1⟩, axis)]).scaled weight

def bonds (axis : Pauli) (weights : List R) : List (PauliString R) :=
  (nonzero weights).map fun e => bond e.1 axis e.2

/-- Fields along `Z` on the sites, and `Z` couplings between neighbours. -/
structure IsingChain (R : Type) where
  fields : List R
  couplings : List R

namespace IsingChain

def uniform (n : Nat) (field coupling : R) : IsingChain R :=
  ⟨List.replicate n field, List.replicate (n - 1) coupling⟩

/-- Fields first, then couplings. -/
def terms (c : IsingChain R) : List (PauliString R) :=
  ((nonzero c.fields).map fun e => (PauliString.single ⟨e.1⟩ .z).scaled e.2) ++
    bonds .z c.couplings

end IsingChain

/-- Couplings of each axis between neighbours. -/
structure HeisenbergChain (R : Type) where
  xx : List R
  yy : List R
  zz : List R

namespace HeisenbergChain

def uniform (n : Nat) (coupling : R) : HeisenbergChain R :=
  let couplings := List.replicate (n - 1) coupling
  ⟨couplings, couplings, couplings⟩

/-- The bonds of `X`, then of `Y`, then of `Z`. -/
def terms (c : HeisenbergChain R) : List (PauliString R) :=
  bonds .x c.xx ++ bonds .y c.yy ++ bonds .z c.zz

end HeisenbergChain

end PauliEstimation
