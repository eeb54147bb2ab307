import PauliEstimation.Circuit
import PauliEstimation.Measurement.Error

/-!
The template that prepares and reads any setting. A circuit is flanked by layers of symbolic powers
of `X` and `Y`: the initial pair prepares each qubit's input state from `|0⟩`, the final pair turns
each qubit's observable onto `Z`, and a joint measurement follows. A flip adds one more `X` to the
final pair.
-/

namespace PauliEstimation.BasisChange

/-- The key of the joint measurement. -/
def key : String := "z"

/-- The layers of the template, by gate and place. -/
inductive Slot where
  | xInitial
  | yInitial
  | xFinal
  | yFinal
deriving DecidableEq, Repr

namespace Slot

def text : Slot → String
  | xInitial => "Xi"
  | yInitial => "Yi"
  | xFinal => "Xf"
  | yFinal => "Yf"

def axis : Slot → Pauli
  | xInitial | xFinal => .x
  | yInitial | yFinal => .y

/-- The symbol of a qubit's exponent in a layer. -/
def symbol (slot : Slot) (q : Qubit) : String := q.text ++ "-" ++ slot.text

end Slot

variable {R : Type}

def layer (slot : Slot) (qubits : List Qubit) : Moment R :=
  qubits.map fun q => .power slot.axis q (.symbol (slot.symbol q))

/-- A circuit inside the layers. The initial pair is left out when no state needs preparing. -/
def template (c : Circuit R) (qubits : List Qubit) (needsInitial : Bool) : Circuit R :=
  ⟨(if needsInitial then [layer .xInitial qubits, layer .yInitial qubits] else []) ++ c.moments ++
    [layer .xFinal qubits, layer .yFinal qubits, [.measure qubits key]]⟩

variable [Scalar R]

/-- The exponents of `X` and `Y` that map the positive eigenstate of an axis to `|0⟩`, or to `|1⟩`
with a flip. -/
def finalExponents (axis : Pauli) (flip : Bool) : R × R :=
  match axis, flip with
  | .x, false => (0, -Scalar.half)
  | .x, true => (0, Scalar.half)
  | .y, false => (Scalar.half, 0)
  | .y, true => (-Scalar.half, 0)
  | .z, false => (0, 0)
  | .z, true => (1, 0)

/-- The exponents of `X` and `Y` that prepare an eigenstate from `|0⟩`. -/
def initialExponents (s : Eigenstate) : R × R :=
  match s.axis, s.positive with
  | .x, true => (0, Scalar.half)
  | .x, false => (0, -Scalar.half)
  | .y, true => (-Scalar.half, 0)
  | .y, false => (Scalar.half, 0)
  | .z, true => (0, 0)
  | .z, false => (1, 0)

def setPair (x y : Slot) (q : Qubit) (exponents : R × R) (b : Bindings R) : Bindings R :=
  (b.set (x.symbol q) exponents.1).set (y.symbol q) exponents.2

/-- Binds the symbols of one qubit. -/
def bindQubit? (s : Setting R) (needsInitial : Bool) (b : Bindings R) (q : Qubit) (flip : Bool) :
    Except (MeasurementError R) (Bindings R) :=
  match s.observable.get? q with
  | none => .error (.unpaddedSetting q .observable)
  | some axis =>
    let b := setPair .xFinal .yFinal q (finalExponents axis flip) b
    if needsInitial then
      match s.initial.get? q with
      | none => .error (.unpaddedSetting q .initialState)
      | some state => .ok (setPair .xInitial .yInitial q (initialExponents state) b)
    else .ok b

/-- The bindings with which the template measures a setting that covers all the qubits. There is one
flip for each qubit. -/
def bindings? (s : Setting R) (flips : List Bool) (qubits : List Qubit) (needsInitial : Bool) :
    Except (MeasurementError R) (Bindings R) :=
  if qubits.length = flips.length then
    (qubits.zip flips).foldlM (fun b e => bindQubit? s needsInitial b e.1 e.2) Bindings.empty
  else .error (.lengthMismatch qubits.length flips.length)

/-- Gives the qubits without a value this one. -/
def padMap {α : Type} (m : QubitMap α) (qubits : List Qubit) (a : α) : QubitMap α :=
  qubits.foldl (fun m q => if m.contains q then m else m.insert q a) m

/-- Extends a setting of coefficient one by `Z` and `|0⟩` on the qubits it does not touch. -/
def pad? (s : Setting R) (qubits : List Qubit) : Except (MeasurementError R) (Setting R) :=
  if s.observable.coefficient == 1 then
    .ok ⟨padMap s.initial qubits Eigenstate.zero,
      { s.observable with factors := padMap s.observable.factors qubits .z }⟩
  else .error (.unscaledPadding s.observable.coefficient)

/-- Whether some setting starts from anything but `|0…0⟩`. -/
def needsInitial (settings : List (Setting R)) : Bool :=
  settings.any fun s => !ProductState.isAllZero s.initial

end PauliEstimation.BasisChange
