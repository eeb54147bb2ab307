import PauliEstimation.Amplitude
import PauliEstimation.Decimal.Fixed

/-!
Products added with a single rounding. Where no step overflows or underflows, the errors of a
product and of a sum are floats themselves, so they are found and put back before the last rounding.
Everywhere else the exact sum is taken as an integer times a power of two.
-/

namespace PauliEstimation

/-- A result with the error made in rounding to it. The exact result is the sum of both. -/
structure RoundedFloat where
  value : Float
  error : Float

namespace RoundedFloat

@[inline] def sum (a b : Float) : RoundedFloat :=
  let s := a + b
  let t := s - a
  ⟨s, (a - (s - t)) + (b - t)⟩

/-- A power of two that cuts a float in half, plus one. -/
def splitter : Float := 134217729.0

/-- A float cut to the upper half of its digits, so that products of halves are exact. -/
@[inline] def upperHalf (a : Float) : Float :=
  let t := splitter * a
  t - (t - a)

@[inline] def product (a b : Float) : RoundedFloat :=
  let p := a * b
  let a₁ := upperHalf a
  let a₂ := a - a₁
  let b₁ := upperHalf b
  let b₂ := b - b₁
  ⟨p, a₂ * b₂ - (((p - a₁ * b₁) - a₂ * b₁) - a₁ * b₂)⟩

/-- The sum, where one that is no float goes to the neighbour with an odd last digit. A later
rounding to fewer digits then goes the way that the exact sum would go. -/
@[inline] def sumToOdd (a b : Float) : Float :=
  let s := sum a b
  if s.error == 0.0 then s.value
  else
    let bits := s.value.toBits
    if bits &&& 1 == 1 then s.value
    -- One more in the bits is one step away from zero.
    else if (bits ^^^ s.error.toBits) >>> 63 == 0 then Float.ofBits (bits + 1)
    else Float.ofBits (bits - 1)

/-- `a * b + c` by way of the errors of its product and of its sums. -/
@[inline] def mulAddByErrors (a b c : Float) : Float :=
  let u := product a b
  let t := sum c u.error
  let v := sum u.value t.value
  v.value + sumToOdd t.error v.error

/-- The float nearest to `n * 2 ^ exponent`; a half goes to the even neighbour. -/
def nearest (negative : Bool) (n : Nat) (exponent : Int) : Float :=
  let spare : Int := n.log2 - 52
  let spare := if spare < -1074 - exponent then -1074 - exponent else spare
  let mantissa := Decimal.roundHalfEven (n * Nat.pow 2 (-spare).toNat) (Nat.pow 2 spare.toNat)
  let bits := (exponent + spare + 1074).toNat * 0x10000000000000 + mantissa
  let x := Float.ofBits (Nat.min bits 0x7ff0000000000000).toUInt64
  if negative then -x else x

/-- `a * b + c` by way of the exact sum. -/
def mulAddExactly (a b c : Float) : Float :=
  match FloatReading.ofFloat a, FloatReading.ofFloat b, FloatReading.ofFloat c with
  | .finite x, .finite y, .finite z =>
    let raised := x.exponent + y.exponent
    let exponent := if raised < z.exponent then raised else z.exponent
    let product := x.signedMantissa * y.signedMantissa * Nat.pow 2 (raised - exponent).toNat
    let total := product + z.signedMantissa * Nat.pow 2 (z.exponent - exponent).toNat
    if total = 0 then a * b + c else nearest (decide (total < 0)) total.natAbs exponent
  | _, _, _ => a * b + c

/-- Sizes up to this one are far from overflow. -/
def large : Float := 1e290

/-- Factors from this size on can be cut in half. -/
def small : Float := 1e-290

/-- Products from this size on have errors that are floats. -/
def smallProduct : Float := 1e-270

/-- `a * b + c`, rounded once. -/
def mulAdd (a b c : Float) : Float :=
  let p := a * b
  if a == 0.0 || b == 0.0 then p + c
  else if a.abs > small && b.abs > small && p.abs > smallProduct &&
      a.abs < large && b.abs < large && p.abs < large && c.abs < large then
    mulAddByErrors a b c
  else mulAddExactly a b c

end RoundedFloat

/-- `a * b + c`, with one rounding for each product of parts. -/
@[inline] def Amplitude.mulAdd (a b c : Amplitude Float) : Amplitude Float :=
  ⟨RoundedFloat.mulAdd a.re b.re (RoundedFloat.mulAdd (-a.im) b.im c.re),
    RoundedFloat.mulAdd a.re b.im (RoundedFloat.mulAdd a.im b.re c.im)⟩

end PauliEstimation
