import PauliEstimation.Setting

namespace PauliEstimation

/-- The parts of a setting that carry one value per qubit. -/
inductive SettingPart where
  | observable
  | initialState
deriving DecidableEq, Repr

inductive MeasurementError (R : Type) where
  /-- A stopping criterion asked for a negative number of repetitions. -/
  | negativeRepetitions (answer : Int)
  | lengthMismatch (qubits flips : Nat)
  /-- A sampler gave another number of results than there were sweep points. -/
  | resultCountMismatch (expected got : Nat)
  | tooManySweeps (groups repetitions ceiling : Nat)
  | unscaledPadding (coefficient : R)
  | unpaddedSetting (qubit : Qubit) (part : SettingPart)
  | incompatibleSetting (setting max : Setting R)
  /-- Symmetrization left less than one repetition for each half. -/
  | zeroRepetitions (requested : Nat)
  | unknownSetting (setting : Setting R)
  | roundLimitExceeded (limit : Nat)
  | sampler (cause : String)
  | fault (cause : Fault)

def SettingPart.text : SettingPart → String
  | .observable => "observable"
  | .initialState => "initial state"

namespace MeasurementError

def message : MeasurementError Float → String
  | .negativeRepetitions answer =>
    "stopping criteria's `more_repetitions` returned " ++ toString answer ++
      "; it must be 0 or positive"
  | .lengthMismatch qubits flips =>
    "`qubits` (" ++ toString qubits ++ ") and `flips` (" ++ toString flips ++
      ") must be equal length"
  | .resultCountMismatch expected got =>
    "not as many results received as sweeps requested: " ++ toString got ++ " for " ++
      toString expected
  | .tooManySweeps groups repetitions ceiling =>
    toString groups ++ " parameter settings leave " ++ toString repetitions ++
      " repetitions each under the " ++ toString ceiling ++
      "-repetition job limit; use fewer sweeps or split the job manually"
  | .unscaledPadding coefficient =>
    "only a max setting with coefficient 1 can be padded, got " ++ Decimal.shortest coefficient
  | .unpaddedSetting qubit part =>
    "max setting has no " ++ part.text ++ " on " ++ qubit.text ++
      "; pad it before resolving parameters"
  | .incompatibleSetting setting max =>
    "setting `" ++ setting.text ++ "` cannot be read from the shots of max setting `" ++
      max.text ++ "`"
  | .zeroRepetitions requested =>
    toString requested ++
      " repetition(s) cannot be split across a flipped and an unflipped sweep"
  | .unknownSetting setting =>
    "setting `" ++ setting.text ++ "` is not measured by this accumulator"
  | .roundLimitExceeded limit =>
    "stopping criteria still unsatisfied after " ++ toString limit ++ " rounds"
  | .sampler cause => "sampler failed: " ++ cause
  | .fault cause => cause.message

/-- The message and, below it, the messages of its causes. -/
def chain (e : MeasurementError Float) : List String :=
  match e with
  | .sampler cause => [e.message, cause]
  | _ => [e.message]

end MeasurementError

/-- Carries a fault of a circuit or a bit matrix into a measurement. -/
def liftFault {R α : Type} : Except Fault α → Except (MeasurementError R) α
  | .ok a => .ok a
  | .error fault => .error (.fault fault)

theorem liftFault_eq_ok_iff {R α : Type} {x : Except Fault α} {a : α} :
    liftFault (R := R) x = .ok a ↔ x = .ok a := by
  cases x with
  | error fault => simp [liftFault]
  | ok b => simp [liftFault]

end PauliEstimation
