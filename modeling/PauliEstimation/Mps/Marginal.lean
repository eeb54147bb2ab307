import PauliEstimation.Mps

/-!
The distribution of a single site, from the environments on either side of it. An environment pairs
a bond of the state with the same bond of its conjugate.
-/

namespace PauliEstimation.Mps

variable {R : Type} [Scalar R]

/-- Runs through the index pairs of a bond on which an environment does not vanish, each of which adds
to what the pairs before it came to. -/
@[specialize] def sumEnv (env : Array (Amplitude R)) (bond : Nat)
    (add : Nat → Nat → Amplitude R → Amplitude R → Amplitude R) : Amplitude R :=
  bond.fold (fun l _ acc => bond.fold (fun l' _ acc =>
    let e := env.getD (l * bond + l') 0
    if e == 0 then acc else add l l' e acc) acc) 0

/-- Moves a left environment across a site. -/
@[specialize] def absorbLeft (env : Array (Amplitude R)) (a : Tensor R) : Array (Amplitude R) :=
  Array.ofFn fun k : Fin (a.right * a.right) =>
    sumEnv env a.left fun l l' e =>
      Amplitude.addRange a.phys fun p =>
        e * a.entry l p (k / a.right) * (a.entry l' p (k % a.right)).conj

/-- Moves a right environment across a site. -/
@[specialize] def absorbRight (a : Tensor R) (env : Array (Amplitude R)) : Array (Amplitude R) :=
  Array.ofFn fun k : Fin (a.left * a.left) =>
    sumEnv env a.right fun r r' e =>
      Amplitude.addRange a.phys fun p =>
        a.entry (k / a.left) p r * e * (a.entry (k % a.left) p r').conj

def leftEnv (sites : List (Tensor R)) : Array (Amplitude R) := sites.foldl absorbLeft #[1]

def rightEnv (sites : List (Tensor R)) : Array (Amplitude R) := sites.foldr absorbRight #[1]

/-- The weight of the outcome `p` on a site between its two environments. -/
@[specialize] def outcomeWeight (left right : Array (Amplitude R)) (a : Tensor R) (p : Nat) : R :=
  (a.left.fold (fun l _ acc => a.left.fold (fun l' _ acc => a.right.fold (fun r _ acc =>
    Amplitude.addRange a.right (fun r' =>
      left.getD (l * a.left + l') 0 * a.entry l p r * (a.entry l' p r').conj
        * right.getD (r * a.right + r') 0) acc) acc) acc) 0).re

/-- Both outcome weights of site `k`. -/
def siteWeights? (psi : Mps R) (k : Nat) : Except Fault (R × R) := do
  let a ← psi.site? k
  let left := leftEnv (psi.sites.take k)
  let right := rightEnv (psi.sites.drop (k + 1))
  return (outcomeWeight left right a 0, outcomeWeight left right a 1)

def positivePart (x : R) : R := if 0 < x then x else 0

/-- The probabilities of both outcomes on site `k`. A state of norm zero reads as `|0⟩`. -/
def siteProbabilities? (psi : Mps R) (k : Nat) : Except Fault (R × R) := do
  let (w₀, w₁) ← psi.siteWeights? k
  let w₀ := positivePart w₀
  let w₁ := positivePart w₁
  let total := w₀ + w₁
  return if total == 0 then (1, 0) else (w₀ / total, w₁ / total)

end PauliEstimation.Mps
