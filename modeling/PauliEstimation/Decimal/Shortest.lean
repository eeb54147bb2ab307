import PauliEstimation.Decimal.Binary
import PauliEstimation.Decimal.Digits

/-!
The shortest decimal that reads back to a float. The reals that round to the float form an interval,
closed exactly when the mantissa is even. For one digit, two digits and so on, the two neighbours of
the value on that decimal grid are tried, and the nearer one inside the interval wins.
-/

namespace PauliEstimation.Decimal

/-- Numerators, over one denominator, of a value and of the interval that rounds to it. -/
structure RoundingInterval where
  low : Nat
  value : Nat
  high : Nat
  denominator : Nat
  closed : Bool

namespace RoundingInterval

/-- The interval reaches halfway to either neighbouring float. -/
def ofBinary (b : BinaryFraction) : RoundingInterval :=
  let scale := Nat.pow 2 (b.exponent - 2).toNat
  { low := (4 * b.mantissa - if b.narrowBelow then 1 else 2) * scale
    value := 4 * b.mantissa * scale
    high := (4 * b.mantissa + 2) * scale
    denominator := Nat.pow 2 (2 - b.exponent).toNat
    closed := b.mantissa % 2 = 0 }

/-- The least `e` with the value below `10 ^ e`. -/
def magnitude (v : RoundingInterval) : Int :=
  if v.denominator ≤ v.value then ((toString (v.value / v.denominator)).length : Int)
  else 1 - ((toString (v.denominator / v.value)).length : Int)

/-- Whether `digits * up / down` lies in the interval. -/
def Holds (v : RoundingInterval) (up down digits : Nat) : Prop :=
  if v.closed then v.low * down ≤ digits * up ∧ digits * up ≤ v.high * down
  else v.low * down < digits * up ∧ digits * up < v.high * down

instance (v : RoundingInterval) (up down digits : Nat) : Decidable (v.Holds up down digits) := by
  unfold Holds
  infer_instance

/-- The nearer neighbour of the value on the grid of step `10 ^ exponent`, if one reads back.
Of two equally near neighbours the larger is taken. -/
def nearest? (v : RoundingInterval) (exponent : Int) : Option Nat :=
  let up := v.denominator * Nat.pow 10 exponent.toNat
  let down := Nat.pow 10 (-exponent).toNat
  let below := v.value * down / up
  let lowHit := decide (v.Holds up down below)
  let highHit := decide (v.Holds up down (below + 1))
  let nearLow := decide (2 * (v.value * down) < (2 * below + 1) * up)
  if lowHit && (nearLow || !highHit) then some below
  else if highHit then some (below + 1)
  else none

/-- Seventeen digits always suffice. -/
def shortest? (v : RoundingInterval) : Option (Nat × Int) :=
  (List.range 17).findSome? fun (k : Nat) =>
    let exponent := v.magnitude - (k + 1 : Nat)
    (v.nearest? exponent).map (·, exponent)

end RoundingInterval

/-- Moves trailing zeros of the digits into the exponent. -/
def normalize (digits : Nat) (exponent : Int) : Nat × Int :=
  if digits = 0 then (0, 0)
  else if digits % 10 = 0 then normalize (digits / 10) (exponent + 1)
  else (digits, exponent)
termination_by digits

/-- The digits and exponent of the shortest decimal for a magnitude. -/
def shortestDigits (b : BinaryFraction) : Nat × Int :=
  if b.mantissa = 0 then (0, 0)
  else match (RoundingInterval.ofBinary b).shortest? with
    | some (digits, exponent) => normalize digits exponent
    | none => (0, 0)

/-- Positional text with the fewest digits that read back; whole numbers carry no point. -/
def shortest (x : Float) : String :=
  match FloatReading.ofFloat x with
  | .nan => "NaN"
  | .infinite negative => signed negative "inf"
  | .finite b =>
    let (digits, exponent) := shortestDigits b
    signed b.negative (positional digits exponent)

end PauliEstimation.Decimal
