import PauliEstimation.Scalar

namespace PauliEstimation

@[ext] structure Amplitude (R : Type) where
  re : R
  im : R

namespace Amplitude

variable {R : Type} [Scalar R]

instance : Zero (Amplitude R) := ⟨⟨0, 0⟩⟩

instance : One (Amplitude R) := ⟨⟨1, 0⟩⟩

instance : Inhabited (Amplitude R) := ⟨0⟩

instance : Add (Amplitude R) := ⟨fun a b => ⟨a.re + b.re, a.im + b.im⟩⟩

instance : Sub (Amplitude R) := ⟨fun a b => ⟨a.re - b.re, a.im - b.im⟩⟩

instance : Neg (Amplitude R) := ⟨fun a => ⟨-a.re, -a.im⟩⟩

instance : Mul (Amplitude R) :=
  ⟨fun a b => ⟨a.re * b.re - a.im * b.im, a.re * b.im + a.im * b.re⟩⟩

instance : BEq (Amplitude R) := ⟨fun a b => a.re == b.re && a.im == b.im⟩

/-- The imaginary unit. -/
def i : Amplitude R := ⟨0, 1⟩

def ofReal (x : R) : Amplitude R := ⟨x, 0⟩

def conj (a : Amplitude R) : Amplitude R := ⟨a.re, -a.im⟩

def scale (x : R) (a : Amplitude R) : Amplitude R := ⟨a.re * x, a.im * x⟩

/-- The squared modulus. -/
def normSq (a : Amplitude R) : R := a.re * a.re + a.im * a.im

/-- The unit amplitude `e^{iπt}`. -/
def phase (t : R) : Amplitude R := ⟨Scalar.cosPi t, Scalar.sinPi t⟩

/-- Adds `f 0, …, f (n - 1)` to an amplitude, one after the other. -/
@[specialize] def addRange (n : Nat) (f : Nat → Amplitude R) (a : Amplitude R) : Amplitude R :=
  n.fold (fun k _ acc => acc + f k) a

/-- The sum of `f 0, …, f (n - 1)`, taken in that order. -/
@[specialize] def sumRange (n : Nat) (f : Nat → Amplitude R) : Amplitude R := addRange n f 0

end Amplitude

end PauliEstimation
