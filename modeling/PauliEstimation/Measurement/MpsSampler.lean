import PauliEstimation.Measurement.Sampler
import PauliEstimation.Noise.Readout
import PauliEstimation.Register

/-!
A sampler that simulates a register. Every call, every sweep point of a call and every noisy
trajectory of a point has its own forked random stream. With depolarizing noise the shots of a point
are spread over several trajectories, the first of which take the remainder.
-/

namespace PauliEstimation

structure MpsSampler (R : Type) where
  seed : String
  trunc : Truncation R
  depolarizing : R
  trajectories : Nat
  readout : ReadoutError R

namespace MpsSampler

variable {R : Type} [Scalar R]

def defaultTrajectories : Nat := 16

def ofSeed (seed : String) : MpsSampler R :=
  ⟨seed, Truncation.standard, 0, defaultTrajectories, default⟩

/-- At least one trajectory is run. -/
def withTrajectories (m : MpsSampler R) (n : Nat) : MpsSampler R :=
  { m with trajectories := max 1 n }

def callLabel (call : Nat) : List UInt8 := utf8 ("call" ++ toString call)

def pointLabel (point : Nat) : List UInt8 := utf8 ("point" ++ toString point)

def trajectoryLabel (trajectory : Nat) : List UInt8 := utf8 ("trajectory" ++ toString trajectory)

def callStream (m : MpsSampler R) (call : Nat) : RandomStream :=
  (RandomStream.ofSeed (utf8 m.seed)).fork (callLabel call)

/-- The shots of a trajectory. -/
def trajectoryShots (repetitions trajectories t : Nat) : Nat :=
  repetitions / trajectories + if t < repetitions % trajectories then 1 else 0

variable [ThinSvd R]

/-- Runs one noisy trajectory of a resolved circuit and measures. -/
@[specialize] def trajectory? (m : MpsSampler R) (resolved : Circuit R) (measured : List Qubit)
    (shots : Nat) (s : RandomStream) : Except Fault BitMatrix :=
  let run := (Register.forCircuit resolved m.trunc).applyCircuitNoisy resolved m.depolarizing s
  match run.stopped with
  | some fault => .error fault
  | none => (run.register.sample? measured shots run.stream).map Prod.fst

/-- The shots of all trajectories. Trajectories without shots, which come last, are not run. -/
@[specialize] def noisyBits? (m : MpsSampler R) (resolved : Circuit R) (measured : List Qubit)
    (repetitions : Nat) (s : RandomStream) : Except Fault BitMatrix :=
  (List.range (min m.trajectories repetitions)).foldlM (fun bits t => do
    let shots := trajectoryShots repetitions m.trajectories t
    bits.append? (← m.trajectory? resolved measured shots (s.fork (trajectoryLabel t))))
    (BitMatrix.empty measured.length)

/-- The shots of a point before readout, and the stream that the readout draws from. -/
@[specialize] def pointBits? (m : MpsSampler R) (resolved : Circuit R) (measured : List Qubit)
    (repetitions : Nat) (s : RandomStream) : Except Fault (BitMatrix × RandomStream) :=
  if 0 < m.depolarizing then
    (m.noisyBits? resolved measured repetitions s).map (·, s)
  else
    match (Register.forCircuit resolved m.trunc).applyCircuit resolved with
    | (_, some fault) => .error fault
    | (register, none) => register.sample? measured repetitions s

/-- Cuts the columns of successive measurements apart, from a column on. A repeated key keeps its
last measurement. -/
def split? (bits : BitMatrix) : Nat → List (String × List Qubit) → Bindings BitMatrix →
    Except Fault (Bindings BitMatrix)
  | _, [], found => .ok found
  | start, (key, qubits) :: rest, found => do
    let columns := (List.range qubits.length).map (start + ·)
    split? bits (start + qubits.length) rest (found.set key (← bits.selectColumns? columns))

/-- Runs one sweep point on its own stream. -/
@[specialize] def point? (m : MpsSampler R) (program : Circuit R) (bindings : Bindings R)
    (repetitions : Nat) (s : RandomStream) : Except Fault (PointResult R) := do
  let resolved ← program.resolve bindings
  let measured := resolved.measurements.flatMap Prod.snd
  let (bits, s) ← m.pointBits? resolved measured repetitions s
  let (bits, _) ← m.readout.report? bits s
  return ⟨bindings, ← split? bits 0 resolved.measurements Bindings.empty⟩

/-- Runs all points of a request as the call of the given number. -/
@[specialize] def sweep? (m : MpsSampler R) (call : Nat) (request : SweepRequest R) :
    Except Fault (List (PointResult R)) :=
  let root := m.callStream call
  request.sweep.points.zipIdx.mapM fun e =>
    m.point? request.program e.1 request.repetitions (root.fork (pointLabel e.2))

/-- The sampler, whose state is the number of calls so far. Failed calls count. -/
@[specialize] def sampler (m : MpsSampler R) : Sampler R Nat := fun request calls =>
  ((m.sweep? calls request).mapError Fault.message, calls + 1)

end MpsSampler

end PauliEstimation
