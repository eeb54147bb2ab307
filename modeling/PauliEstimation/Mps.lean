import PauliEstimation.Svd
import PauliEstimation.Tensor

namespace PauliEstimation

/-- What a split across a bond may keep: at most `maxBond` singular values, all above `cutoff`. At
least one value is always kept. -/
structure Truncation (R : Type) where
  maxBond : Nat
  cutoff : R

namespace Truncation

variable {R : Type} [Scalar R]

/-- Effectively lossless for small registers. -/
def exact : Truncation R := ⟨1024, 1 / Scalar.ofNat 100000000000000⟩

def standard : Truncation R := ⟨64, 1 / Scalar.ofNat 10000000000⟩

/-- The number of singular values kept. -/
def kept (t : Truncation R) (values : List R) : Nat :=
  max 1 (min (values.filter fun s => t.cutoff < s).length (max 1 t.maxBond))

theorem one_le_kept (t : Truncation R) (values : List R) : 1 ≤ t.kept values := Nat.le_max_left ..

theorem kept_le (t : Truncation R) (values : List R) : t.kept values ≤ max 1 t.maxBond := by
  unfold kept
  omega

theorem kept_le_length (t : Truncation R) (values : List R) :
    t.kept values ≤ max 1 values.length := by
  have := List.length_filter_le (fun s => decide (t.cutoff < s)) values
  unfold kept
  omega

end Truncation

structure Mps (R : Type) where
  sites : List (Tensor R)

namespace Mps

variable {R : Type} [Scalar R]

/-- The site tensor of `|0⟩`. -/
def zeroSite : Tensor R := Tensor.ofFn 1 2 1 fun _ p _ => if p = 0 then 1 else 0

/-- `|0…0⟩` on `n` sites. -/
def zero (n : Nat) : Mps R := ⟨List.replicate n zeroSite⟩

def size (psi : Mps R) : Nat := psi.sites.length

def isEmpty (psi : Mps R) : Bool := psi.sites.isEmpty

/-- The dimensions of the bonds between neighbouring sites. -/
def bondDims (psi : Mps R) : List Nat := (psi.sites.drop 1).map Tensor.left

def site? (psi : Mps R) (k : Nat) : Except Fault (Tensor R) :=
  match psi.sites[k]? with
  | some a => .ok a
  | none => .error (.outOfRange k psi.size)

def applyOne? (psi : Mps R) (k : Nat) (u : Gate R 2) : Except Fault (Mps R) := do
  let a ← psi.site? k
  return ⟨psi.sites.set k (a.rotate u)⟩

/-- Two neighbouring sites as one, with their shared bond summed. The physical index is twice the
first plus the second. -/
def contract (a b : Tensor R) : Tensor R :=
  Tensor.ofFn a.left 4 b.right fun l q r =>
    Amplitude.sumRange a.right fun m => a.entry l (q / 2) m * b.entry m (q % 2) r

/-- A pair after a gate, as a block from the left site's indices to the right site's. -/
def pairBlock (u : Gate R 4) (pair : Tensor R) : Block R :=
  Block.ofFn (2 * pair.left) (2 * pair.right) fun i j =>
    let row := 2 * (i % 2) + j / pair.right
    Amplitude.sumRange 4 fun q =>
      u.entry row q * pair.entry (i / 2) q (j % pair.right)

/-- The site left of a split carries the singular values. -/
def splitLeft (f : Svd R) (left kept : Nat) : Tensor R :=
  Tensor.ofFn left 2 kept fun l p m => (f.left.entry (l * 2 + p) m).scale (f.values.getD m 0)

def splitRight (f : Svd R) (kept right : Nat) : Tensor R :=
  Tensor.ofFn kept 2 right fun m p r => (f.right.entry (p * right + r) m).conj

/-- Applies a gate to the sites `k` and `k + 1` and splits them again by a truncated singular value
decomposition. -/
def applyPair? [ThinSvd R] (psi : Mps R) (k : Nat) (u : Gate R 4) (trunc : Truncation R) :
    Except Fault (Mps R) := do
  let a ← psi.site? k
  let b ← psi.site? (k + 1)
  let f := ThinSvd.factor (pairBlock u (contract a b))
  let kept := trunc.kept f.values
  return ⟨(psi.sites.set k (splitLeft f a.left kept)).set (k + 1) (splitRight f kept b.right)⟩

end Mps

end PauliEstimation
