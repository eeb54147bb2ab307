import PauliEstimation.Bindings
import PauliEstimation.Scalar

namespace PauliEstimation

structure Sweep (R : Type) where
  points : List (Bindings R)

namespace Sweep

variable {R : Type}

instance [BEq R] : BEq (Sweep R) := ⟨fun s t => s.points == t.points⟩

/-- A single empty assignment. -/
def unit : Sweep R := ⟨[Bindings.empty]⟩

instance : Inhabited (Sweep R) := ⟨unit⟩

def ofValues (name : String) (values : List R) : Sweep R :=
  ⟨values.map fun v => Bindings.empty.set name v⟩

/-- Evenly spaced values from `start` to `stop`, both included. A single value is `start`. -/
def linspace [Scalar R] (name : String) (start stop : R) (n : Nat) : Sweep R :=
  ofValues name <| match n with
    | 1 => [start]
    | n => (List.range n).map fun k =>
      start + (stop - start) * Scalar.ofNat k / Scalar.ofNat (n - 1)

/-- Every pair of points. The first sweep varies slowest and the second binds last. -/
def product (s t : Sweep R) : Sweep R :=
  ⟨s.points.flatMap fun p => t.points.map fun q => p.extend q⟩

def size (s : Sweep R) : Nat := s.points.length

def isEmpty (s : Sweep R) : Bool := s.points.isEmpty

end Sweep

end PauliEstimation
