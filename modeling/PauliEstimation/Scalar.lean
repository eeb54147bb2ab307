/-!
The numbers that coefficients, exponents, amplitudes and statistics are written in. Programs run on
`Float`. Every definition that only computes is stated over a `Scalar`, so the same text can be read
over exact numbers.
-/

namespace PauliEstimation

class Scalar (R : Type) extends
    Zero R, One R, Add R, Sub R, Mul R, Div R, Neg R, LT R, LE R, BEq R where
  /-- The number of a count. -/
  ofNat : Nat → R
  sqrt : R → R
  /-- The cosine of `π * t`. -/
  cosPi : R → R
  /-- The sine of `π * t`. -/
  sinPi : R → R
  /-- A word as a fraction of the full range of words, from 0 to 1 inclusive. -/
  ofWord : UInt64 → R
  decidableLT : DecidableLT R
  decidableLE : DecidableLE R

-- a type with operations of its own keeps those
attribute [instance (low)] Scalar.toZero Scalar.toOne Scalar.toAdd Scalar.toSub Scalar.toMul
  Scalar.toDiv Scalar.toNeg Scalar.toLT Scalar.toLE Scalar.toBEq

namespace Scalar

variable {R : Type} [Scalar R]

instance : DecidableLT R := decidableLT

instance : DecidableLE R := decidableLE

def half : R := 1 / ofNat 2

/-- The left-to-right sum. It starts from negative zero, which is neutral for both signs of zero. -/
@[specialize] def sum (xs : List R) : R := xs.foldl (· + ·) (-0)

end Scalar

instance : Scalar Float where
  zero := 0.0
  one := 1.0
  ofNat := Float.ofNat
  sqrt := Float.sqrt
  cosPi t := Float.cos (3.141592653589793 * t)
  sinPi t := Float.sin (3.141592653589793 * t)
  ofWord w := w.toFloat / 18446744073709551616.0
  decidableLT := inferInstance
  decidableLE := inferInstance

end PauliEstimation
