import PauliEstimation.ProductState

namespace PauliEstimation

structure Setting (R : Type) where
  initial : ProductState
  observable : PauliString R

namespace Setting

variable {R : Type}

instance [BEq R] : BEq (Setting R) :=
  ⟨fun s t => decide (s.initial = t.initial) && s.observable == t.observable⟩

/-- The observable read on `|0…0⟩` over its own qubits. -/
def ofObservable (observable : PauliString R) : Setting R :=
  ⟨ProductState.zeros observable.qubits, observable⟩

/-- Whether every factor of the one map stands in the other with the same value. -/
def Within {α : Type} (small large : QubitMap α) : Prop :=
  ∀ f ∈ small.toList, large.get? f.1 = some f.2

instance {α : Type} [DecidableEq α] (small large : QubitMap α) :
    Decidable (Within small large) := by
  unfold Within
  infer_instance

/-- The shots of `max` also measure `s`. Coefficients do not matter. -/
def IsCompatibleWith (s max : Setting R) : Prop :=
  Within s.observable.factors max.observable.factors ∧ Within s.initial max.initial

instance (s max : Setting R) : Decidable (s.IsCompatibleWith max) := by
  unfold IsCompatibleWith
  infer_instance

/-- The union of two maps, if they agree on the qubits they share. -/
def union? {α : Type} [DecidableEq α] (m n : QubitMap α) : Option (QubitMap α) :=
  n.toList.foldlM (fun m f => match m.get? f.1 with
    | none => some (m.insert f.1 f.2)
    | some a => if a = f.2 then some m else none) m

/-- The smallest setting that covers both, with coefficient one. -/
def mergedWith? [One R] (s t : Setting R) : Option (Setting R) := do
  let factors ← union? s.observable.factors t.observable.factors
  let initial ← union? s.initial t.initial
  return ⟨initial, 1, factors⟩

def unscaled [One R] (s : Setting R) : Setting R :=
  { s with observable := { s.observable with coefficient := 1 } }

def text (s : Setting Float) : String := ProductState.text s.initial ++ " → " ++ s.observable.text

end Setting

/-- Settings measured together: the shots of `max` serve all of them. -/
structure SettingGroup (R : Type) where
  max : Setting R
  settings : List (Setting R)

end PauliEstimation
