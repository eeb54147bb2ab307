import PauliEstimation.Circuit
import PauliEstimation.Mps.Marginal
import PauliEstimation.Mps.Shots
import PauliEstimation.Noise.Depolarizing

namespace PauliEstimation

structure Register (R : Type) where
  qubits : List Qubit
  state : Mps R
  trunc : Truncation R

namespace Register

variable {R : Type} [Scalar R]

/-- The listed qubits, each once, all in `|0⟩`. -/
def ofQubits (qubits : List Qubit) (trunc : Truncation R) : Register R :=
  let qubits := Qubit.ascending qubits
  ⟨qubits, Mps.zero qubits.length, trunc⟩

def forCircuit (c : Circuit R) (trunc : Truncation R) : Register R := ofQubits c.qubits trunc

def site? (r : Register R) (q : Qubit) : Except Fault Nat :=
  match r.qubits.idxOf? q with
  | some k => .ok k
  | none => .error (.unknownQubit q)

def applyOne? (r : Register R) (q : Qubit) (u : Gate R 2) :
    Except Fault (Register R × List Nat) := do
  let k ← r.site? q
  return ({ r with state := ← r.state.applyOne? k u }, [k])

/-- Applies a gate whose first qubit is `a`, whichever of the two has the smaller site. -/
def applyPair? [ThinSvd R] (r : Register R) (a b : Qubit) (u : Gate R 4) :
    Except Fault (Register R × List Nat) := do
  let i ← r.site? a
  let j ← r.site? b
  if i + 1 = j then
    return ({ r with state := ← r.state.applyPair? i u r.trunc }, [i, j])
  else if j + 1 = i then
    return ({ r with state := ← r.state.applyPair? j u.swapped r.trunc }, [i, j])
  else throw (.nonAdjacent a b)

/-- Applies one operation and lists the sites it acted on. Measurements act on none. -/
def step? [ThinSvd R] (r : Register R) : Operation R → Except Fault (Register R × List Nat)
  | .power axis q e => do r.applyOne? q (Gate.power axis (← e.value?))
  | .hadamard q => r.applyOne? q Gate.hadamard
  | .cnot c t => r.applyPair? c t Gate.cnot
  | .cz a b => r.applyPair? a b Gate.cz
  | .measure _ _ => .ok (r, [])

/-- Where a run over operations ended: the register reached, the stream reached, and what stopped
it, if anything did. -/
structure Progress (R : Type) where
  register : Register R
  stream : RandomStream
  stopped : Option Fault

/-- Applies operations up to the first that fails. -/
def applyAll [ThinSvd R] (r : Register R) : List (Operation R) → Register R × Option Fault
  | [] => (r, none)
  | op :: ops => match r.step? op with
    | .ok (r, _) => r.applyAll ops
    | .error fault => (r, some fault)

def kickAll (p : R) (r : Register R) (s : RandomStream) : List Nat → Progress R
  | [] => ⟨r, s, none⟩
  | k :: ks => match r.state.depolarize k p s with
    | (.ok state, s) => kickAll p { r with state } s ks
    | (.error fault, s) => ⟨r, s, some fault⟩

/-- Applies operations up to the first that fails, with a depolarizing kick of strength `p` on every
site that an operation acted on. -/
def applyAllNoisy [ThinSvd R] (p : R) (r : Register R) (s : RandomStream) :
    List (Operation R) → Progress R
  | [] => ⟨r, s, none⟩
  | op :: ops => match r.step? op with
    | .error fault => ⟨r, s, some fault⟩
    | .ok (r, sites) => match kickAll p r s sites with
      | ⟨r, s, none⟩ => applyAllNoisy p r s ops
      | stopped => stopped

def applyCircuit [ThinSvd R] (r : Register R) (c : Circuit R) : Register R × Option Fault :=
  r.applyAll c.operations

def applyCircuitNoisy [ThinSvd R] (r : Register R) (c : Circuit R) (p : R) (s : RandomStream) :
    Progress R :=
  applyAllNoisy p r s c.operations

def probabilities? (r : Register R) (q : Qubit) : Except Fault (R × R) := do
  r.state.siteProbabilities? (← r.site? q)

/-- The factors of an observable by site. -/
def factors? (r : Register R) (observable : PauliString R) : Except Fault (List (Nat × Pauli)) :=
  observable.factors.toList.mapM fun f => (r.site? f.1).map (·, f.2)

/-- The exact expectation of a weighted Pauli string, coefficient included. -/
@[specialize] def expectation? (r : Register R) (observable : PauliString R) : Except Fault R := do
  return observable.coefficient * (← r.state.pauliExpectation? (← r.factors? observable))

/-- The exact expectations of several Pauli strings, from one expansion of the state. -/
@[specialize] def expectations? (r : Register R) (observables : List (PauliString R)) :
    Except Fault (List R) :=
  if observables.isEmpty then .ok []
  else
    let v := r.state.stateVector
    observables.mapM fun s => do
      return s.coefficient * (← Mps.denseExpectation? v r.state.size (← r.factors? s))

/-- `shots` joint measurements of the listed qubits, in that order of columns. -/
@[specialize] def sample? (r : Register R) (qubits : List Qubit) (shots : Nat) (s : RandomStream) :
    Except Fault (BitMatrix × RandomStream) := do
  r.state.sample? (← qubits.mapM r.site?) shots s

end Register

end PauliEstimation
