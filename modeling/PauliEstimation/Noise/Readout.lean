import PauliEstimation.BitMatrix
import PauliEstimation.RandomStream

namespace PauliEstimation

/-- The probabilities that a zero is reported as one, and a one as zero. -/
structure ReadoutError (R : Type) where
  zeroToOne : R
  oneToZero : R

namespace ReadoutError

variable {R : Type} [Scalar R]

instance : Inhabited (ReadoutError R) := ⟨⟨0, 0⟩⟩

def IsNoiseless (e : ReadoutError R) : Prop := e.zeroToOne ≤ 0 ∧ e.oneToZero ≤ 0

instance (e : ReadoutError R) : Decidable e.IsNoiseless := by
  unfold IsNoiseless
  infer_instance

/-- The probability that the given bit is reported wrongly. -/
def errorProbability (e : ReadoutError R) (bit : Bool) : R :=
  if bit then e.oneToZero else e.zeroToOne

/-- Reports one bit, with a coin for each probability. -/
@[specialize] def reportBit {m : Type → Type} [Monad m] (e : ReadoutError R) (coin : R → m Bool)
    (bit : Bool) : m Bool := do
  return bit != (← coin (e.errorProbability bit))

/-- Reports rows of bits from left to right and from top to bottom. -/
@[specialize] def reportRows {m : Type → Type} [Monad m] (e : ReadoutError R) (coin : R → m Bool)
    (rows : List (List Bool)) : m (List (List Bool)) :=
  rows.mapM fun row => row.mapM fun bit => e.reportBit coin bit

def context : List UInt8 := utf8 "READOUT"

/-- The coin that draws from a random stream. -/
def streamCoin (p : R) : StateM RandomStream Bool := fun s => s.chance p context

/-- Reports every bit of a matrix. A noiseless detector draws nothing. -/
def report? (e : ReadoutError R) (bits : BitMatrix) (s : RandomStream) :
    Except Fault (BitMatrix × RandomStream) :=
  if e.IsNoiseless then .ok (bits, s)
  else do
    let (rows, s) := (e.reportRows streamCoin bits.rows).run s
    return (← BitMatrix.ofRows? bits.width rows, s)

end ReadoutError

end PauliEstimation
