import PauliEstimation.Measurement.Config
import PauliEstimation.Measurement.Plan
import PauliEstimation.Measurement.Sampler
import PauliEstimation.Measurement.Variant

/-!
The adaptive measurement. Every round asks the criterion which accumulators still need shots,
submits one sweep that covers all of them, and folds the results back in. The measurement ends when
none asks for more. Sampler and criterion are arbitrary and may keep states of their own.
-/

namespace PauliEstimation

/-- What stays fixed over the rounds of a measurement. -/
structure Job (R : Type) where
  program : Circuit R
  /-- The measured qubits, in ascending order; their positions are the columns of the shots. -/
  qubits : List Qubit
  needsInitial : Bool
  specs : List (Spec R)

/-- What a round changes. -/
structure Session (R : Type) where
  pending : List Nat
  accumulators : List (Accumulator R)
  notices : List Notice
  rounds : Nat

/-- The outcome of a finished measurement. -/
structure MeasurementRun (R : Type) where
  /-- One for each group and sweep point, with the sweep running fastest. -/
  accumulators : List (Accumulator R)
  notices : List Notice
  /-- The number of sampler calls. -/
  rounds : Nat

namespace Job

variable {R : Type} [Scalar R]

/-- All qubits that some group prepares or reads. -/
def qubitsOf (groups : List (SettingGroup R)) : List Qubit :=
  Qubit.ascending (groups.flatMap fun g => g.max.initial.keys ++ g.max.observable.qubits)

/-- The column of each qubit. -/
def columnsOf (qubits : List Qubit) : QubitMap Nat := QubitMap.ofList qubits.zipIdx

/-- The padded setting of a group, which has to serve all settings of the group. -/
def padGroup? (qubits : List Qubit) (g : SettingGroup R) :
    Except (MeasurementError R) (Setting R) := do
  let padded ← BasisChange.pad? g.max qubits
  match g.settings.find? fun s => !decide (s.IsCompatibleWith padded) with
  | some s => throw (.incompatibleSetting s g.max)
  | none => return padded

/-- The empty accumulators of a group, one for each point of the circuit's sweep. -/
def groupAccumulators? (qubits : List Qubit) (sweep : Sweep R) (g : SettingGroup R) :
    Except (MeasurementError R) (List (Accumulator R)) := do
  let padded ← padGroup? qubits g
  return sweep.points.map fun b => Accumulator.empty ⟨padded, b⟩ g.settings (columnsOf qubits)

/-- Checks the groups and lays out one accumulator for each group and sweep point. -/
def start? (c : Circuit R) (groups : List (SettingGroup R)) (sweep : Sweep R) :
    Except (MeasurementError R) (Job R × Session R) := do
  let qubits := qubitsOf groups
  let needsInitial := BasisChange.needsInitial (groups.map SettingGroup.max)
  let accumulators := (← groups.mapM (groupAccumulators? qubits sweep)).flatten
  return (⟨BasisChange.template c qubits needsInitial, qubits, needsInitial,
      accumulators.map Accumulator.spec⟩,
    ⟨List.range accumulators.length, accumulators, [], 0⟩)

end Job

namespace Session

variable {R : Type}

/-- Takes in the bits of one variant, with its flips undone. -/
def deliverOne? (accumulators : List (Accumulator R)) (v : Variant R) (result : PointResult R) :
    Except Fault (List (Accumulator R)) := do
  match result.measurements.get? BasisChange.key with
  | none => throw (.missingKey BasisChange.key)
  | some bits =>
    let corrected ← bits.flipColumns? v.flips
    match accumulators[v.index]? with
    | none => throw (.outOfRange v.index accumulators.length)
    | some a => return accumulators.set v.index (← a.consume? corrected)

/-- Takes in one result for each variant. -/
def deliver? (variants : List (Variant R)) (results : List (PointResult R))
    (accumulators : List (Accumulator R)) :
    Except (MeasurementError R) (List (Accumulator R)) :=
  if results.length = variants.length then
    liftFault ((variants.zip results).foldlM (fun as e => deliverOne? as e.1 e.2) accumulators)
  else .error (.resultCountMismatch variants.length results.length)

/-- What a round comes to. -/
inductive Outcome (R : Type) where
  | finished (run : MeasurementRun R)
  | failed (error : MeasurementError R)
  | continued (session : Session R)

variable [Scalar R]

/-- The sweep to submit for a plan, with the variants behind its points. -/
def submission? (job : Job R) (config : MeasurementConfig) (plan : Plan) :
    Except (MeasurementError R) (List (Variant R) × SweepRequest R) := do
  let variants ← liftFault
    (Variant.ofPending? job.specs job.qubits.length config.symmetrize plan.pending)
  let repetitions := Variant.share config.symmetrize plan.repetitions
  if repetitions = 0 then throw (.zeroRepetitions plan.repetitions)
  let sweep ← Variant.sweep? variants job.qubits job.needsInitial
  return (variants, ⟨job.program, sweep, repetitions⟩)

/-- Whether the rounds so far use up the limit. -/
def limitReached? (config : MeasurementConfig) (rounds : Nat) : Option Nat :=
  config.maxRounds.filter (· ≤ rounds)

variable {σ κ : Type}

/-- One round: plan, submit, deliver. -/
def round (sampler : Sampler R σ) (criterion : Criterion R κ) (config : MeasurementConfig)
    (job : Job R) (session : Session R) (s : σ) (t : κ) : Outcome R × σ × κ :=
  match Plan.next criterion session.accumulators config.maxRepetitionsPerJob session.pending t with
  | (.error e, t) => (.failed e, s, t)
  | (.ok plan, t) =>
    let notices := session.notices ++ plan.notices
    if plan.pending = [] then
      (.finished ⟨session.accumulators, notices, session.rounds⟩, s, t)
    else match limitReached? config session.rounds with
      | some limit => (.failed (.roundLimitExceeded limit), s, t)
      | none => match submission? job config plan with
        | .error e => (.failed e, s, t)
        | .ok (variants, request) => match sampler request s with
          | (.error cause, s) => (.failed (.sampler cause), s, t)
          | (.ok results, s) => match deliver? variants results session.accumulators with
            | .error e => (.failed e, s, t)
            | .ok accumulators =>
              (.continued ⟨plan.pending, accumulators, notices, session.rounds + 1⟩, s, t)

/-- Runs rounds until the measurement ends. With too little fuel for that the answer is `none`. -/
def run (sampler : Sampler R σ) (criterion : Criterion R κ) (config : MeasurementConfig)
    (job : Job R) : Nat → Session R → σ → κ →
    Option (Except (MeasurementError R) (MeasurementRun R)) × σ × κ
  | 0, _, s, t => (none, s, t)
  | fuel + 1, session, s, t => match round sampler criterion config job session s t with
    | (.finished r, s, t) => (some (.ok r), s, t)
    | (.failed e, s, t) => (some (.error e), s, t)
    | (.continued session, s, t) => run sampler criterion config job fuel session s t

end Session

/-- More rounds than any measurement can take. -/
def ampleFuel : Nat := 4611686018427387904

/-- Measures groups of settings on a circuit at every point of its sweep. The fuel bounds the number
of rounds that are tried. -/
def measure {R σ κ : Type} [Scalar R] (sampler : Sampler R σ) (criterion : Criterion R κ)
    (config : MeasurementConfig) (c : Circuit R) (groups : List (SettingGroup R))
    (sweep : Sweep R) (fuel : Nat) (s : σ) (t : κ) :
    Option (Except (MeasurementError R) (MeasurementRun R)) × σ × κ :=
  match Job.start? c groups sweep with
  | .error e => (some (.error e), s, t)
  | .ok (job, session) => Session.run sampler criterion config job fuel session s t

end PauliEstimation
