import PauliEstimation.Mps.StateVector

namespace PauliEstimation.Mps

variable {R : Type} [Scalar R]

/-- The bit of a basis index that belongs to a site of a register of `n`. -/
def siteBit (n index site : Nat) : Bool := index.testBit (n - 1 - site)

/-- Sites past the end of a register of `n` have no bit. -/
def checkSites (n : Nat) (sites : List Nat) : Except Fault Unit :=
  match sites.find? fun site => decide (n ≤ site) with
  | none => .ok ()
  | some site => .error (.outOfRange site n)

theorem checkSites_eq_ok_iff {n : Nat} {sites : List Nat} :
    checkSites n sites = .ok () ↔ ∀ k ∈ sites, k < n := by
  unfold checkSites
  cases hfind : sites.find? fun site => decide (n ≤ site) with
  | none => simpa using hfind
  | some site =>
    have hpast : n ≤ site := by simpa using List.find?_some hfind
    refine iff_of_false (by simp) fun h => ?_
    exact Nat.not_lt.mpr hpast (h site (List.mem_of_find?_eq_some hfind))

/-- The bits that a Pauli product inverts. -/
def flipMask (n : Nat) (factors : List (Nat × Pauli)) : Nat :=
  factors.foldl (fun m f => if f.2 = .z then m else m ||| 1 <<< (n - 1 - f.1)) 0

/-- The phase with which one factor maps a basis state of the given bit. -/
def factorPhase : Pauli → Bool → Amplitude R
  | .x, _ => 1
  | .y, false => Amplitude.i
  | .y, true => -Amplitude.i
  | .z, false => 1
  | .z, true => ⟨-1, 0⟩

def productPhase (n : Nat) (factors : List (Nat × Pauli)) (index : Nat) : Amplitude R :=
  factors.foldl (fun w f => w * factorPhase f.2 (siteBit n index f.1)) 1

/-- The squared norm, and the inner product of the amplitudes with their image. -/
@[specialize] def pauliSums (v : Array (Amplitude R)) (n : Nat) (factors : List (Nat × Pauli)) :
    R × Amplitude R :=
  let mask := flipMask n factors
  v.size.fold (fun k _ acc =>
    let a := v.getD k 0
    let norm := acc.1 + a.normSq
    if a == 0 then (norm, acc.2)
    else (norm, acc.2 + (v.getD (k ^^^ mask) 0).conj * productPhase n factors k * a)) (0, 0)

/-- The expectation of a product of Pauli factors in the state of the given amplitudes; zero for a
state of norm zero. -/
@[specialize] def denseExpectation (v : Array (Amplitude R)) (n : Nat)
    (factors : List (Nat × Pauli)) : R :=
  let (norm, acc) := pauliSums v n factors
  if norm == 0 then 0 else acc.re / norm

/-- The expectation, for factors on any sites. The inverted bits are looked up first, and the phases
for the amplitudes that do not vanish. -/
@[specialize] def denseExpectation? (v : Array (Amplitude R)) (n : Nat)
    (factors : List (Nat × Pauli)) : Except Fault R := do
  checkSites n ((factors.filter fun f => f.2 ≠ .z).map Prod.fst)
  unless v.all (· == 0) do
    checkSites n (factors.map Prod.fst)
  return denseExpectation v n factors

/-- `⟨ψ|P|ψ⟩ / ⟨ψ|ψ⟩` for a product of Pauli factors on distinct sites. -/
@[specialize] def pauliExpectation (psi : Mps R) (factors : List (Nat × Pauli)) : R :=
  denseExpectation psi.stateVector psi.size factors

@[specialize] def pauliExpectation? (psi : Mps R) (factors : List (Nat × Pauli)) : Except Fault R :=
  denseExpectation? psi.stateVector psi.size factors

theorem pauliExpectation?_eq_ok {psi : Mps R} {factors : List (Nat × Pauli)}
    (h : ∀ f ∈ factors, f.1 < psi.size) :
    psi.pauliExpectation? factors = .ok (psi.pauliExpectation factors) := by
  have hsites : checkSites psi.size (factors.map Prod.fst) = .ok () :=
    checkSites_eq_ok_iff.mpr (List.forall_mem_map.mpr h)
  have hinverted : checkSites psi.size ((factors.filter fun f => f.2 ≠ .z).map Prod.fst) = .ok () :=
    checkSites_eq_ok_iff.mpr (List.forall_mem_map.mpr fun f hf => h f (List.mem_filter.mp hf).1)
  unfold pauliExpectation? denseExpectation?
  rw [hinverted, hsites]
  split <;> rfl

end PauliEstimation.Mps
