import PauliEstimation.Svd.Length

namespace PauliEstimation

/-- The map `x ↦ x - weight * v * ⟨v, x⟩` for `v = 1 :: tail`. Its weight is two over the squared
length of `v`, or zero for the identity. -/
structure Reflector where
  weight : Float
  tail : Column

namespace Reflector

/-- The reflection that clears a column below its head, with the head it leaves. A column that is
clear already is left alone. The new head points away from the old one, so their difference, which
is divided by, never cancels. -/
def clearing : Column → Reflector × Amplitude Float
  | [] => (⟨0.0, []⟩, 0)
  | head :: tail =>
    let below := Column.length tail
    if below == 0.0 then (⟨0.0, tail⟩, head)
    else
      let size := head.modulus
      let direction := if size == 0.0 then 1 else head.scale (1.0 / size)
      let image := direction.scale (Amplitude.modulus ⟨size, below⟩)
      let unit := (head + image).inverse
      let slope := below * unit.modulus
      (⟨1.0 / (0.5 * (1.0 + slope * slope)), tail.map (· * unit)⟩, -image)

/-- The multiple of `1 :: tail` that a reflection takes from a column. -/
def component (r : Reflector) : Column → Amplitude Float
  | [] => 0
  | head :: tail =>
    ((r.tail.zip tail).foldl (fun s e => e.1.conj.mulAdd e.2 s) head).scale r.weight

def reflect (r : Reflector) : Column → Column
  | [] => []
  | head :: tail =>
    let y := r.component (head :: tail)
    (head - y) :: Column.subScaled tail y r.tail

/-- Undoes reflections of which each acted one entry below the one before. -/
def restore : List Reflector → Column → Column
  | r :: rs, head :: tail => r.reflect (head :: restore rs tail)
  | _, a => a

/-- Clears columns below the diagonal. Returns the reflections and the square of columns left. -/
def triangular : List Column → List Reflector × List Column
  | [] => ([], [])
  | first :: rest =>
    let (u, head) := clearing first
    let reflected := rest.map u.reflect
    let (us, columns) := triangular (reflected.map List.tail)
    (u :: us, (head :: rest.map fun _ => 0) ::
      (reflected.zip columns).map fun e => e.1.headD 0 :: e.2)
termination_by columns => columns.length
decreasing_by simp

end Reflector

end PauliEstimation
