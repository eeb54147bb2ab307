import PauliEstimation.Main
import PauliEstimation.Proofs.Measurement.JobCeiling
import PauliEstimation.Proofs.Measurement.Routing
import PauliEstimation.Proofs.Measurement.Convergence
import PauliEstimation.Proofs.Exact.Amplitude
import PauliEstimation.Proofs.Exact.BasisIndex
import PauliEstimation.Proofs.Exact.Dense
import PauliEstimation.Proofs.Exact.OneQubit
import PauliEstimation.Proofs.BasisChange.Binding
import PauliEstimation.Proofs.BasisChange.Table
import PauliEstimation.Proofs.Exact.Layer
import PauliEstimation.Proofs.Measurement.Values
import PauliEstimation.Proofs.Register.Factors
import PauliEstimation.Proofs.BasisChange.Readout
import PauliEstimation.Proofs.BasisChange.Unbiased
import PauliEstimation.Proofs.Setting.Merging
import PauliEstimation.Proofs.Setting.Join
import PauliEstimation.Proofs.Measurement.ShotCount
import PauliEstimation.Proofs.Measurement.PolicyRange
import PauliEstimation.Proofs.Measurement.PartialReadout
import PauliEstimation.Proofs.Setting.Partition
import PauliEstimation.Proofs.Measurement.Padding
import PauliEstimation.Proofs.Measurement.Validation
import PauliEstimation.Proofs.Measurement.Layout
import PauliEstimation.Proofs.Measurement.Attribution
import PauliEstimation.Proofs.Measurement.FixedTotal
import PauliEstimation.Proofs.Exact.DenseCircuit
import PauliEstimation.Proofs.Register.Simulation
import PauliEstimation.Proofs.BasisChange.Resolution
import PauliEstimation.Proofs.Measurement.Submission
import PauliEstimation.Proofs.Measurement.Lockstep
import PauliEstimation.Proofs.Measurement.BatchSizes
import PauliEstimation.Proofs.Measurement.RoundLimit
import PauliEstimation.Proofs.Measurement.GroupOrder
import PauliEstimation.Proofs.Measurement.JointReadout
import PauliEstimation.Proofs.Measurement.SymmetrizedTotal
import PauliEstimation.Proofs.Measurement.EarlyRefusal
import PauliEstimation.Proofs.Measurement.Covariance
import PauliEstimation.Proofs.Measurement.VarianceBound
import PauliEstimation.Proofs.Exact.Environment
import PauliEstimation.Proofs.Exact.Outcome
import PauliEstimation.Proofs.Exact.Marginal
import PauliEstimation.Proofs.BasisChange.Preparation
import PauliEstimation.Proofs.Noise.Law
import PauliEstimation.Proofs.Noise.Symmetrization
import PauliEstimation.Proofs.Register.Weight
import PauliEstimation.Proofs.Measurement.FinalState
import PauliEstimation.Proofs.RandomStream.Separation
import PauliEstimation.Proofs.Measurement.JointKey
import PauliEstimation.Proofs.Exact.Draws
import PauliEstimation.Proofs.Mps.Checked
import PauliEstimation.Proofs.Measurement.PlanOutcome
import PauliEstimation.Proofs.Register.Obstacle
import PauliEstimation.Proofs.Measurement.PointFailure
import PauliEstimation.Proofs.Measurement.GroupTotals
import PauliEstimation.Proofs.Exact.Expectation
import PauliEstimation.Proofs.Circuit.Substitution
import PauliEstimation.Proofs.Register.GateBoundary
import PauliEstimation.Proofs.Measurement.Reading
import PauliEstimation.Proofs.Setting.Chains
import PauliEstimation.Proofs.Noise.Corruption
import PauliEstimation.Proofs.Measurement.Storage
import PauliEstimation.Proofs.BasisChange.InitialLayer
import PauliEstimation.Proofs.Sweep
