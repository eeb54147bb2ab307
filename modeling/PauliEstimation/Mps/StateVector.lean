import PauliEstimation.Mps

namespace PauliEstimation.Mps

variable {R : Type} [Scalar R]

/-- Extends partial amplitudes, indexed by the bits so far and then by a bond of dimension `bond`,
through one more site. Vanishing partial amplitudes are passed over. -/
@[specialize] def extend (partials : Array (Amplitude R)) (bond : Nat) (a : Tensor R) :
    Array (Amplitude R) :=
  Array.ofFn fun k : Fin (partials.size / bond * 2 * a.right) =>
    let r := k % a.right
    let p := k / a.right % 2
    let bits := k / a.right / 2
    a.left.fold (fun l _ acc =>
      let v := partials.getD (bits * bond + l) 0
      if v == 0 then acc else acc + v * a.entry l p r) 0

@[specialize] def extendAll (partials : Array (Amplitude R)) (bond : Nat) :
    List (Tensor R) → Array (Amplitude R)
  | [] => partials
  | a :: rest => extendAll (extend partials bond a) a.right rest

/-- All `2 ^ n` amplitudes. Site 0 is the most significant bit of a basis index. -/
@[specialize] def stateVector (psi : Mps R) : Array (Amplitude R) := extendAll #[1] 1 psi.sites

end PauliEstimation.Mps
