import PauliEstimation.Estimator.Options
import PauliEstimation.Estimator.SystemError
import PauliEstimation.Hamiltonian
import PauliEstimation.Measurement.Estimate
import PauliEstimation.Measurement.MpsSampler
import PauliEstimation.Measurement.Session
import PauliEstimation.Setting.Grouping
import PauliEstimation.Svd.Reduction

namespace PauliEstimation.Estimator

/-- One measured term of the energy beside its exact value. -/
structure Row where
  result : SettingResult Float
  exact : Float

structure Report where
  rows : List Row
  energy : Estimate Float
  exact : Float
  rounds : Nat
  shots : Nat
  notices : List Notice

/-- An error, outermost message first, with its causes below. -/
structure Failure where
  message : String
  causes : List String

/-- A Hadamard on the first qubit, then a ladder of controlled flips. -/
def ghz (n : Nat) : Circuit Float :=
  ⟨[.hadamard ⟨0⟩] :: (List.range (n - 1)).map fun k => [.cnot ⟨k⟩ ⟨k + 1⟩]⟩

namespace Options

def terms (o : Options) : List (PauliString Float) :=
  match o.model with
  | .ising => (IsingChain.uniform o.n o.field o.coupling).terms
  | .heisenberg => (HeisenbergChain.uniform o.n o.coupling).terms

def stopping (o : Options) : StoppingPolicy Float :=
  match o.policy with
  | .variance => .variance ⟨o.varianceBound, o.chunk⟩
  | .repetitions => .repetitions ⟨o.totalRepetitions, o.chunk⟩

def config (o : Options) : MeasurementConfig :=
  ⟨o.maxRepetitionsPerJob, o.symmetrize, o.maxRounds⟩

def mpsSampler (o : Options) : MpsSampler Float :=
  MpsSampler.withTrajectories ⟨o.seed, ⟨o.maxBond, o.cutoff⟩, o.p, 1, ⟨o.p01, o.p10⟩⟩ o.trajectories

end Options

def Failure.ofError (e : MeasurementError Float) : Failure := ⟨e.message, e.chain.drop 1⟩

def Failure.within (context : String) (f : Failure) : Failure := ⟨context, f.message :: f.causes⟩

def Failure.ofFault (fault : Fault) : Failure := ⟨fault.message, []⟩

def Failure.ofSystem (e : SystemError) : Failure := ⟨e.text, []⟩

/-- The file for the table could not be created. -/
def Failure.creating (path : String) (e : SystemError) : Failure :=
  (Failure.ofSystem e).within ("failed to create " ++ path)

/-- The measurement behind a report. Without enough fuel for it the answer is `none`. -/
def measurement (o : Options) (fuel : Nat) :
    Option (Except (MeasurementError Float) (MeasurementRun Float)) :=
  let groups := SettingGroup.greedy (o.terms.map Setting.ofObservable)
  (measure o.mpsSampler.sampler o.stopping.criterion o.config (ghz o.n) groups Sweep.unit fuel 0
    ()).1

/-- Evaluates a finished measurement against the exact state. -/
def report (o : Options) (run : MeasurementRun Float) : Except Failure Report := do
  let circuit := ghz o.n
  let (reference, stopped) := (Register.forCircuit circuit Truncation.exact).applyCircuit circuit
  if let some fault := stopped then throw (Failure.ofFault fault)
  let exact (ss : List (PauliString Float)) :=
    (reference.expectations? ss).mapError Failure.ofFault
  let results ← run.accumulators.mapM fun a => a.results?.mapError Failure.ofError
  let results := results.flatten
  let exacts ← exact (results.map fun r => r.setting.observable)
  let energy ← (Estimate.ofAccumulators? run.accumulators).mapError Failure.ofError
  return {
    rows := List.zipWith Row.mk results exacts
    energy
    exact := Scalar.sum (← exact o.terms)
    rounds := run.rounds
    shots := run.accumulators.foldl (fun n a => n + a.repetitions) 0
    notices := run.notices }

/-- At least two qubits are needed. -/
def minQubits : Nat := 2

/-- Measures and evaluates. Without enough fuel for the measurement the answer is `none`. -/
def estimate (o : Options) (fuel : Nat) : Option (Except Failure Report) :=
  if o.n < minQubits then
    some (.error ⟨"n must be at least 2, got " ++ toString o.n, []⟩)
  else (measurement o fuel).map fun outcome => do
    let run ← outcome.mapError fun e => (Failure.ofError e).within "measurement failed"
    report o run

namespace Failure

/-- A single cause stands alone; several are numbered. -/
def lines (f : Failure) : List String :=
  ("Error: " ++ f.message) :: match f.causes with
    | [] => []
    | [cause] => ["", "Caused by:", "    " ++ cause]
    | causes => ["", "Caused by:"] ++ causes.zipIdx.map fun e =>
      Decimal.padLeft 5 (toString e.2) ++ ": " ++ e.1

end Failure

/-- The digits of a number, or those of an undefined one. -/
def shortestText (x : Option Float) : String := (x.map Decimal.shortest).getD "NaN"

namespace Row

def line (r : Row) : String :=
  Decimal.padRight 24 r.result.setting.observable.text ++ " " ++
    Decimal.padLeft 10 (Estimate.fixedText r.result.mean) ++ " ± " ++
    Estimate.fixedText r.result.stderr ++ "   exact " ++
    Decimal.padLeft 9 (Decimal.fixedUnsignedZero 6 r.exact) ++ "   shots " ++
    toString r.result.repetitions

def csvFields (r : Row) : List String :=
  [r.result.setting.observable.text, shortestText r.result.mean, shortestText r.result.stderr,
    Decimal.shortest r.exact, toString r.result.repetitions]

end Row

namespace Report

def energyLine (r : Report) : String :=
  "Energy = " ++ r.energy.text ++ " (exact " ++ Decimal.fixedUnsignedZero 6 r.exact ++
    ") | rounds = " ++ toString r.rounds ++ ", shots = " ++ toString r.shots

def termLines (r : Report) : List String := r.rows.map Row.line

def noteLines (r : Report) : List String := r.notices.map fun n => "note: " ++ n.text

def csvHeader : String := "term,mean,stderr,exact,repetitions"

def csvLines (r : Report) : List String :=
  csvHeader :: r.rows.map fun row => ",".intercalate row.csvFields

end Report

end PauliEstimation.Estimator
