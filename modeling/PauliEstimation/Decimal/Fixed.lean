import PauliEstimation.Decimal.Binary
import PauliEstimation.Decimal.Digits

namespace PauliEstimation.Decimal

/-- The natural nearest to `numerator / denominator`; a half goes to the even neighbour. -/
def roundHalfEven (numerator denominator : Nat) : Nat :=
  let below := numerator / denominator
  let rest := 2 * (numerator % denominator)
  if rest < denominator then below
  else if denominator < rest then below + 1
  else if below % 2 = 0 then below else below + 1

/-- The magnitude in units of `10 ^ -places`. -/
def fixedUnits (places : Nat) (b : BinaryFraction) : Nat :=
  roundHalfEven (b.numerator * Nat.pow 10 places) b.denominator

def fixed (places : Nat) (x : Float) : String :=
  match FloatReading.ofFloat x with
  | .nan => "NaN"
  | .infinite negative => signed negative "inf"
  | .finite b => signed b.negative (withPoint places (fixedUnits places b))

/-- Like `fixed`, but a number that rounds to zero is written without a sign. -/
def fixedUnsignedZero (places : Nat) (x : Float) : String :=
  match FloatReading.ofFloat x with
  | .nan => "NaN"
  | .infinite negative => signed negative "inf"
  | .finite b =>
    let units := fixedUnits places b
    signed (b.negative && units != 0) (withPoint places units)

end PauliEstimation.Decimal
