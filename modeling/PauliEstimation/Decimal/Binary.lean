namespace PauliEstimation

/-- The magnitude `mantissa * 2 ^ exponent` with a sign. `narrowBelow` says that the next smaller
float lies at half the distance of the next larger one. -/
structure BinaryFraction where
  negative : Bool
  mantissa : Nat
  exponent : Int
  narrowBelow : Bool
deriving DecidableEq, Repr

inductive FloatReading where
  | nan
  | infinite (negative : Bool)
  | finite (value : BinaryFraction)
deriving DecidableEq, Repr

namespace FloatReading

/-- Sign, exponent and fraction fields of a 64-bit float, put together. -/
def ofBits (bits : UInt64) : FloatReading :=
  let negative := bits >>> 63 = 1
  let field := (bits >>> 52 &&& 0x7ff).toNat
  let fraction := (bits &&& 0xfffffffffffff).toNat
  if field = 0x7ff then
    if fraction = 0 then .infinite negative else .nan
  else if field = 0 then
    .finite ⟨negative, fraction, -1074, false⟩
  else
    .finite ⟨negative, 0x10000000000000 + fraction, (field : Int) - 1075,
      decide (fraction = 0 ∧ 1 < field)⟩

def ofFloat (x : Float) : FloatReading := ofBits x.toBits

end FloatReading

namespace BinaryFraction

/-- The magnitude as a quotient of naturals. -/
def numerator (b : BinaryFraction) : Nat := b.mantissa * Nat.pow 2 b.exponent.toNat

def denominator (b : BinaryFraction) : Nat := Nat.pow 2 (-b.exponent).toNat

def signedMantissa (b : BinaryFraction) : Int := if b.negative then -b.mantissa else b.mantissa

end BinaryFraction

end PauliEstimation
