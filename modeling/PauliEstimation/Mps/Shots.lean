import PauliEstimation.BitMatrix
import PauliEstimation.Mps.Expectation
import PauliEstimation.RandomStream

namespace PauliEstimation

namespace RandomStream

/-- Repeats a draw, collecting the results in order. -/
@[specialize] def repeated {α : Type} (draw : RandomStream → α × RandomStream) (n : Nat)
    (s : RandomStream) : List α × RandomStream :=
  let (xs, s) := n.fold (fun _ _ acc =>
    let (x, s) := draw acc.2
    (x :: acc.1, s)) (([] : List α), s)
  (xs.reverse, s)

@[simp] theorem repeated_zero {α : Type} (draw : RandomStream → α × RandomStream)
    (s : RandomStream) : repeated draw 0 s = ([], s) := rfl

theorem repeated_succ {α : Type} (draw : RandomStream → α × RandomStream) (n : Nat)
    (s : RandomStream) :
    repeated draw (n + 1) s =
      ((repeated draw n s).1 ++ [(draw (repeated draw n s).2).1],
        (draw (repeated draw n s).2).2) := by
  simp [repeated]

end RandomStream

namespace Mps

variable {R : Type} [Scalar R]

/-- The largest register that is sampled. -/
def maxDenseSites : Nat := 24

/-- Running sums of the squared moduli. -/
@[specialize] def cumulative (v : Array (Amplitude R)) : Array R :=
  (v.foldl (fun (acc : Array R × R) a =>
    let total := acc.2 + a.normSq
    (acc.1.push total, total)) (#[], 0)).1

/-- The first position from `low` on, below `low + width`, whose entry exceeds `x`, by bisection of
an ascending table. -/
@[specialize] def bisect (table : Array R) (x : R) (low width : Nat) : Nat :=
  if width = 0 then low
  else
    let half := width / 2
    if table.getD (low + half) 0 ≤ x then bisect table x (low + half + 1) (width - half - 1)
    else bisect table x low half
termination_by width
decreasing_by all_goals omega

/-- The basis index that a point of the cumulative range falls on. -/
def outcome (table : Array R) (x : R) : Nat := min (bisect table x 0 table.size) (table.size - 1)

/-- The bits of one shot, one for each listed site. -/
def shotRow (n : Nat) (sites : List Nat) (index : Nat) : List Bool :=
  sites.map fun site => siteBit n index site

def shotContext : List UInt8 := utf8 "MEASURE_Z"

/-- Draws one shot. -/
@[specialize] def shot (table : Array R) (n : Nat) (sites : List Nat) (s : RandomStream) :
    List Bool × RandomStream :=
  let total := table.getD (table.size - 1) 0
  let (u, s) := s.uniform shotContext
  (shotRow n sites (outcome table (u * total)), s)

theorem length_shotRow (n : Nat) (sites : List Nat) (index : Nat) :
    (shotRow n sites index).length = sites.length := by
  simp [shotRow]

/-- Draws `shots` joint measurements of the listed sites, in that order of columns. -/
@[specialize] def sample? (psi : Mps R) (sites : List Nat) (shots : Nat) (s : RandomStream) :
    Except Fault (BitMatrix × RandomStream) :=
  if maxDenseSites < psi.size then .error (.registerTooLarge psi.size)
  else do
    if 0 < shots then
      checkSites psi.size sites
    let table := cumulative psi.stateVector
    let (rows, s) := RandomStream.repeated (shot table psi.size sites) shots s
    return (← BitMatrix.ofRows? sites.length rows, s)

end Mps

end PauliEstimation
